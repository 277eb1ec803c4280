import EventRelay.Proofs.Positions
import EventRelay.Rpc.Subscription
import Mathlib.Data.List.Induction

/-!
# Where a subscription begins

A subscription from a block on is made of two: the logs from that block on that are already there,
and the new ones, which the node is not told to hold back, whether it is asked for them or sends
them on its own. So the block is kept to as long as it is not after the next new one; with a later
one the new blocks before it come as well.

Main statements:

* `first_block_kept`: the earliest block of a subscription, and of what a relay hands on of its
  first one;
* `new_before_first_block`: a log of an earlier block that comes all the same.
-/

namespace EventRelay.Rpc

/-- The logs in a response. -/
def Response.logs : Response → List Log
  | .result v => (list? log? v).getD []
  | .refusal _ => []

namespace Session

variable {s s' : Session} {α : Type}

/-- What was sent over a line from one time to another, with the responses to it. -/
def exchanged (s s' : Session) : List (Request × Response) :=
  ((s'.sent.drop s.sent.length).map (·.2)).zip s.responses

theorem exchanged_self (s : Session) : s.exchanged s = [] := by
  rw [exchanged, List.drop_length]
  rfl

/-- Without an answer nothing is exchanged. -/
theorem exchanged_of_silent (h : s.responses = []) (s' : Session) : s.exchanged s' = [] := by
  rw [exchanged, h, List.zip_nil_right]

/-- A question is sent. -/
theorem sent_ask (s : Session) (q : Question α) :
    (s.ask q).2.sent = s.sent ++ [(s.now, q.request)] := by
  obtain ⟨now, responses, sent, pushes⟩ := s
  cases responses with
  | nil => rfl
  | cons v _ => cases v <;> rfl

theorem isPrefix_ask (s : Session) (q : Question α) : s.sent <+: (s.ask q).2.sent := by
  rw [sent_ask]
  exact List.prefix_append _ _

@[simp] theorem now_ask (s : Session) (q : Question α) : (s.ask q).2.now = s.now := by
  obtain ⟨now, responses, sent, pushes⟩ := s
  cases responses with
  | nil => rfl
  | cons v _ => cases v <;> rfl

/-- A question takes one response. -/
theorem responses_ask (s : Session) (q : Question α) :
    (s.ask q).2.responses = s.responses.tail := by
  obtain ⟨now, responses, sent, pushes⟩ := s
  cases responses with
  | nil => rfl
  | cons v _ => cases v <;> rfl

/-- A question and the response to it come before what is sent later. -/
theorem exchanged_ask {q : Question α} {v : Response} {vs : List Response}
    (h : s.responses = v :: vs) (hlater : (s.ask q).2.sent <+: s'.sent) :
    s.exchanged s' = (q.request, v) :: (s.ask q).2.exchanged s' := by
  obtain ⟨more, hmore⟩ := hlater
  rw [exchanged, exchanged, responses_ask, h, ← hmore, sent_ask, List.drop_left, List.append_assoc,
    List.drop_left]
  rfl

/-- The logs that a question for logs brings are those in the response. -/
theorem logs_of_ask {q : Question (List Log)} (hq : q.read? = list? log?) {v : Response}
    {vs : List Response} (h : s.responses = v :: vs) :
    ((s.ask q).1.toOption).getD [] = v.logs := by
  rw [ask, send, h]
  cases v with
  | result j =>
    simp only [hq, Response.logs]
    cases list? log? j <;> rfl
  | refusal r => rfl

/-- A question that is answered takes a response. -/
theorem exists_exchanged {q : Question α} {a : α} {s₁ : Session} (h : s.ask q = (.ok a, s₁))
    (hlater : s₁.sent <+: s'.sent) :
    ∃ v vs, s.responses = v :: vs ∧ s.exchanged s' = (q.request, v) :: s₁.exchanged s' := by
  obtain rfl : (s.ask q).2 = s₁ := by rw [h]
  cases hs : s.responses with
  | nil =>
    rw [ask, send, hs] at h
    cases h
  | cons v vs => exact ⟨v, vs, rfl, exchanged_ask hs hlater⟩

end Session

/-- What a subscription brings of what was sent and the responses to it. -/
structure Brings (filter : Nat) (s s' : Session) (logs : List Log) : Prop where
  later : s.sent <+: s'.sent
  logs : logs = (s.exchanged s').flatMap (·.2.logs)
  asked : ∀ x ∈ s.exchanged s', x.1 = (Question.changes filter).request

theorem Brings.here (filter : Nat) (s : Session) : Brings filter s s [] where
  later := List.prefix_rfl
  logs := by rw [Session.exchanged_self]; rfl
  asked x hx := by rw [Session.exchanged_self] at hx; cases hx

/-- The logs of one question come first. -/
theorem Brings.ask {filter : Nat} {s s' : Session} {logs : List Log}
    (h : Brings filter (s.ask (Question.changes filter)).2 s' logs) :
    Brings filter s s' ((s.ask (Question.changes filter)).1.toOption.getD [] ++ logs) := by
  have hlater : s.sent <+: s'.sent := (s.isPrefix_ask _).trans h.later
  cases hs : s.responses with
  | nil =>
    -- There is no response any more, so that nothing comes.
    have hnone : s.exchanged s' = [] := Session.exchanged_of_silent hs s'
    have hrest : logs = [] := by
      rw [h.logs, Session.exchanged_of_silent (by rw [Session.responses_ask, hs]; rfl)]
      rfl
    have hfresh : (s.ask (Question.changes filter)).1.toOption.getD [] = [] := by
      rw [Session.ask, Session.send, hs]
      rfl
    refine ⟨hlater, ?_, fun x hx => ?_⟩
    · rw [hfresh, hrest, hnone]
      rfl
    · rw [hnone] at hx
      cases hx
  | cons v vs =>
    have hall := Session.exchanged_ask hs h.later
    refine ⟨hlater, ?_, fun x hx => ?_⟩
    · rw [Session.logs_of_ask rfl hs, h.logs, hall, List.flatMap_cons]
    · rw [hall] at hx
      rcases List.mem_cons.mp hx with rfl | hx
      · rfl
      · exact h.asked x hx

/-- **Turn after turn brings the logs in all of the responses**: nothing is left out. -/
theorem brings_poll (filter interval turns : Nat) (s : Session) :
    Brings filter s (poll filter interval turns s).2 (poll filter interval turns s).1.logs := by
  induction turns generalizing s with
  | zero => exact .here filter s
  | succ turns ih =>
    obtain ⟨answer, s₁, hask⟩ : ∃ answer s₁, s.ask (Question.changes filter) = (answer, s₁) :=
      ⟨_, _, rfl⟩
    have hfirst : ∀ s' logs, Brings filter s₁ s' logs →
        Brings filter s s' (answer.toOption.getD [] ++ logs) := by
      intro s' logs h
      have hall : Brings filter (s.ask (Question.changes filter)).2 s' logs → _ := Brings.ask
      rw [hask] at hall
      exact hall h
    -- To let the interval pass sends nothing and takes no response.
    have hrest : ∀ s₂, s₂ = s₁ ∨ s₂ = { s₁ with now := s₁.now + interval } →
        Brings filter s₁ (poll filter interval turns s₂).2
          (poll filter interval turns s₂).1.logs := by
      rintro s₂ (rfl | rfl)
      · exact ih s₂
      · obtain ⟨hlater, hlogs, hasked⟩ := ih { s₁ with now := s₁.now + interval }
        exact ⟨hlater, hlogs, hasked⟩
    have hall := hfirst _ _ (hrest (if turns = 0 then s₁ else { s₁ with now := s₁.now + interval })
      (by split; exacts [.inl rfl, .inr rfl]))
    rw [poll, hask]
    cases answer with
    | ok logs => exact hall
    | error e =>
      cases hd : e.isDroppedFilter with
      | true =>
        simp only [hd, if_true]
        exact hfirst _ _ (.here filter s₁)
      | false =>
        simp only [hd, Bool.false_eq_true, if_false]
        exact hall

/-- What is collected from a filter that the node keeps is what is in all of the responses. -/
theorem brings_collect (filter interval span : Nat) (s : Session) :
    Brings filter s (s.collect (.kept filter) interval span).2
      (s.collect (.kept filter) interval span).1.logs := by
  have hpoll := brings_poll filter interval (span / interval + 1) s
  rw [Session.collect]
  generalize poll filter interval (span / interval + 1) s = live at hpoll ⊢
  -- To let the rest of the time pass sends nothing and takes no response.
  dsimp only
  split
  next => exact hpoll
  next => exact ⟨hpoll.later, hpoll.logs, hpoll.asked⟩

/-- How the new logs are asked for. -/
inductive Watched (s : Session) (f : LogFilter) (s' : Session) : Transport → Live → Prop
  | kept {filter : Nat} (h : s.ask (.newFilter f) = (.ok filter, s')) :
      Watched s f s' .http (.kept filter)
  | pushed {pushes : LogFilter → Nat → Pushed} (hpushes : s.pushes = some pushes)
      (h : s.ask (.subscription f) = (.ok (), s')) :
      Watched s f s' .ws (.pushed (pushes f s.now))

/-- A watch that succeeds is one of the two live streams. -/
theorem watched_of_watch {s s' : Session} {transport : Transport} {f : LogFilter} {live : Live}
    (h : s.watch transport f = (.ok live, s')) : Watched s f s' transport live := by
  cases transport with
  | ws =>
    rw [Session.watch] at h
    split at h
    next => cases h
    next pushes hpushes =>
      split at h
      next => cases h
      next s₁ hask =>
        have hnow : s₁.now = s.now := by rw [← Session.now_ask s (.subscription f), hask]
        rw [hnow] at h
        cases h
        exact .pushed hpushes hask
  | http =>
    rw [Session.watch] at h
    split at h
    next => cases h
    next filter s₁ hask =>
      cases h
      exact .kept hask

/-- The backfill is one question for the logs since the block. -/
theorem ask_of_backfill {s s' : Session} {f : LogFilter} {b : UInt64} {past : List Log}
    (hb : f.fromBlock = some b) (h : s.backfill f = (.ok past, s')) :
    s.ask (.logs f) = (.ok past, s') := by
  rw [Session.backfill, hb] at h
  dsimp only at h
  split at h
  next => cases h
  next hask =>
    cases h
    exact hask

/-- What a subscription brings anew. -/
inductive News (s s' : Session) (span : Nat) (f : LogFilter) : Transport → Log → Prop
  | polled {x : Request × Response} {filter : Nat} {l : Log} (hx : x ∈ s.exchanged s')
      (hq : x.1 = (Question.changes filter).request) (hl : l ∈ x.2.logs) : News s s' span f .http l
  | pushed {pushes : LogFilter → Nat → Pushed} {l : Log} (h : s.pushes = some pushes)
      (hl : l ∈ ((pushes { f with fromBlock := none } s.now).upTo (s.now + span)).logs) :
      News s s' span f .ws l

/-- A subscription that is opened: first the new logs are asked for, then those that are already
there; then it is collected. -/
theorem steps_of_subscribe {s s' : Session} {transport : Transport} {interval span : Nat}
    {f : LogFilter} {b : UInt64} {c : Collected} (hb : f.fromBlock = some b)
    (h : s.subscribe transport interval f span = (.ok c, s')) :
    ∃ live s₁ past s₂, Watched s { f with fromBlock := none } s₁ transport live ∧
      s₁.ask (.logs f) = (.ok past, s₂) ∧ s' = (s₂.collect live interval span).2 ∧
      c.logs = past ++ (s₂.collect live interval span).1.logs := by
  obtain ⟨watched, s₁, hwatch⟩ : ∃ watched s₁,
      s.watch transport { f with fromBlock := none } = (watched, s₁) := ⟨_, _, rfl⟩
  obtain ⟨back, s₂, hback⟩ : ∃ back s₂, s₁.backfill f = (back, s₂) := ⟨_, _, rfl⟩
  rw [Session.subscribe, hwatch] at h
  cases watched with
  | error e => cases h
  | ok live =>
    simp only [hback] at h
    cases back with
    | error e => cases h
    | ok past =>
      obtain ⟨hc, hs'⟩ := Prod.mk.inj h
      obtain rfl := Except.ok.inj hc
      exact ⟨live, s₁, past, s₂, watched_of_watch hwatch, ask_of_backfill hb hback, hs'.symm, rfl⟩

/-- The logs that are already there are in the response to the second question. -/
theorem exchanged_of_asks {α : Type} {q : Question α} {a : α} {s s₁ s₂ s' : Session}
    {f : LogFilter} {past : List Log} (hasked : s.ask q = (.ok a, s₁))
    (hpast : s₁.ask (.logs f) = (.ok past, s₂)) (hlater : s₂.sent <+: s'.sent) :
    ∃ v w, past = w.logs ∧ s.exchanged s' =
      (q.request, v) :: ((Question.logs f).request, w) :: s₂.exchanged s' := by
  have hsent : s₁.sent <+: s₂.sent := by
    have hprefix := s₁.isPrefix_ask (Question.logs f)
    rwa [hpast] at hprefix
  obtain ⟨v, _, -, hfirst⟩ := Session.exists_exchanged hasked (hsent.trans hlater)
  obtain ⟨w, ws, hw, hsecond⟩ := Session.exists_exchanged hpast hlater
  have hlogs := Session.logs_of_ask (q := Question.logs f) rfl hw
  rw [hpast] at hlogs
  exact ⟨v, w, hlogs, by rw [hfirst, hsecond]⟩

/-- **What a subscription from a block on is made of**: the logs of one question for those that are
already there, and then all that come anew. -/
theorem exists_of_subscribe {s s' : Session} {transport : Transport} {interval span : Nat}
    {f : LogFilter} {b : UInt64} {c : Collected} (hb : f.fromBlock = some b)
    (h : s.subscribe transport interval f span = (.ok c, s')) :
    ∃ w fresh, ((Question.logs f).request, w) ∈ s.exchanged s' ∧ c.logs = w.logs ++ fresh ∧
      ∀ l, l ∈ fresh ↔ News s s' span f transport l := by
  obtain ⟨live, s₁, past, s₂, hwatched, hpast, hs', hlogs⟩ := steps_of_subscribe hb h
  cases hwatched with
  | @kept filter hkept =>
    have hbrings := brings_collect filter interval span s₂
    rw [← hs'] at hbrings
    obtain ⟨v, w, rfl, hexchanged⟩ := exchanged_of_asks hkept hpast hbrings.later
    refine ⟨w, _, by simp [hexchanged], hlogs, fun l => ⟨fun hl => ?_, fun hnews => ?_⟩⟩
    · rw [hbrings.logs, List.mem_flatMap] at hl
      obtain ⟨x, hx, hl⟩ := hl
      exact .polled (by simp [hexchanged, hx]) (hbrings.asked x hx) hl
    · cases hnews with
      | @polled x filter' _ hx hq hl =>
        -- Only the questions of the turns are questions for new logs.
        have hmethod := congrArg Request.method hq
        rw [hexchanged, List.mem_cons, List.mem_cons] at hx
        rcases hx with rfl | rfl | hx
        · exact absurd (show "eth_newFilter" = "eth_getFilterChanges" from hmethod) (by decide)
        · exact absurd (show "eth_getLogs" = "eth_getFilterChanges" from hmethod) (by decide)
        · rw [hbrings.logs]
          exact List.mem_flatMap.mpr ⟨x, hx, hl⟩
  | @pushed pushes hpushes hasked =>
    -- What the node sends on its own comes without a question.
    have hsent : s₂.sent <+: s'.sent := by
      rw [hs']
      exact List.prefix_rfl
    have hstart : s₂.now = s.now := by
      have hsecond := Session.now_ask s₁ (.logs f)
      have hfirst := Session.now_ask s (.subscription { f with fromBlock := none })
      rw [hpast] at hsecond
      rw [hasked] at hfirst
      exact hsecond.trans hfirst
    obtain ⟨v, w, rfl, hexchanged⟩ := exchanged_of_asks hasked hpast hsent
    rw [Session.collect, hstart] at hlogs
    refine ⟨w, _, by simp [hexchanged], hlogs, fun l => ⟨fun hl => .pushed hpushes hl,
      fun hnews => ?_⟩⟩
    cases hnews with
    | pushed h hl =>
      obtain rfl := Option.some.inj (hpushes.symm.trans h)
      exact hl

/-! ## What the node keeps to -/

/-- The log does not stand before a block. -/
def StartsAt (block : Nat) (l : Log) : Prop :=
  ∀ p, l.position? = some p → block ≤ p.1.toNat

/-- No log stands before a block. -/
def Begins (block : Nat) (logs : List Log) : Prop := ∀ l ∈ logs, StartsAt block l

/-- What a node keeps to in a subscription that was opened when `head` was the newest block: the
logs that are already there are from the block on that was asked for, and the others are new. -/
structure Honest (f : LogFilter) (head : UInt64) (transport : Transport) (span : Nat)
    (s s' : Session) : Prop where
  past : ∀ b w, f.fromBlock = some b → ((Question.logs f).request, w) ∈ s.exchanged s' →
    Begins b.toNat w.logs
  fresh : ∀ l, News s s' span f transport l → StartsAt (head.toNat + 1) l

end EventRelay.Rpc

namespace EventRelay.Relay

/-! ## The first subscription of a relay -/

/-- Whether the relay has a subscription. -/
def Phase.isSubscribed : Phase → Bool
  | .opened _ | .listening | .handing _ => true
  | _ => false

/-- What is received is what the node sends, one log at a time. -/
theorem Following.Turned.hear {r : Relay} {m : Instant} {f f' : Following} {c : Cause}
    {rs : List Reception} (h : Turned r m f c f') (hrs : f.phase.isSubscribed = true → rs ≠ []) :
    (Reception.hear rs c).reverse.flatMap (·.sent) =
        rs.reverse.flatMap (·.sent) ++ (arrival? c).toList ∧
      (f'.phase.isSubscribed = true → Reception.hear rs c ≠ []) := by
  have hquiet : rs.reverse.flatMap (·.sent) = rs.reverse.flatMap (·.sent) ++ [] :=
    (List.append_nil _).symm
  have hheard : ∀ log, rs ≠ [] → (Reception.hear rs (.received .pub (some log))).reverse.flatMap
      (·.sent) = rs.reverse.flatMap (·.sent) ++ [log] ∧
      Reception.hear rs (.received .pub (some log)) ≠ [] := by
    intro log hrs
    cases rs with
    | nil => exact absurd rfl hrs
    | cons s rest =>
      exact ⟨by simp [Reception.hear, List.flatMap_append], List.cons_ne_nil _ _⟩
  cases h with
  | subscribed last b head retries =>
    exact ⟨by simp [Reception.hear, arrival?, List.flatMap_append], fun _ => List.cons_ne_nil _ _⟩
  | unplaced _ _ log _ _ => exact (hheard log (hrs rfl)).imp_right fun h _ => h
  | skipped _ _ log _ _ _ _ => exact (hheard log (hrs rfl)).imp_right fun h _ => h
  | taken _ _ log _ _ _ _ => exact (hheard log (hrs rfl)).imp_right fun h _ => h
  | opened _ _ _ => exact ⟨hquiet, fun _ => hrs rfl⟩
  | handed _ _ _ => exact ⟨hquiet, fun _ => hrs rfl⟩
  | _ => exact ⟨hquiet, Bool.noConfusion⟩

namespace Following

variable {r : Relay} {hs : List Happening} {handed : List Log} {g : Following} {b : UInt64}

/-- All that arrives is sent by a subscription. -/
theorem Run.arrivals_eq (h : Run r hs handed g) :
    arrivals hs = (receptions hs).reverse.flatMap (·.sent) ∧
      (g.phase.isSubscribed = true → receptions hs ≠ []) := by
  induction h with
  | start => exact ⟨rfl, nofun⟩
  | turn _ goes ih =>
    obtain ⟨harrivals, hsubscribed⟩ := ih
    have hhear := (goes_iff_turned.mp goes).hear hsubscribed
    rw [receptions_concat, arrivals_concat, harrivals, hhear.1]
    exact ⟨rfl, hhear.2⟩

/-- What a subscription sends does not change where the first one began. -/
theorem last_hear {rs : List Reception} {start : Option UInt64} (log : Log)
    (h : ∀ s, rs.getLast? = some s → s.start = start) :
    ∀ s, (Reception.hear rs (.received .pub (some log))).getLast? = some s → s.start = start := by
  cases rs with
  | nil => exact nofun
  | cons s rest =>
    cases rest with
    | nil =>
      intro s' hs'
      obtain rfl := Option.some.inj hs'
      exact h s rfl
    | cons s' rest =>
      rw [List.getLast?_cons_cons] at h
      rw [Reception.hear, List.getLast?_cons_cons]
      exact h

/-- The first subscription of a relay begins with the block that is configured. -/
theorem Run.first_start (h : Run r hs handed g) (hb : r.fromBlock = some b) :
    ∀ s, (receptions hs).getLast? = some s → s.start = some b := by
  induction h with
  | start => exact nofun
  | @turn hs handed f f' x before goes ih =>
    rw [receptions_concat]
    have hturned := goes_iff_turned.mp goes
    generalize x.cause = c at hturned
    cases hturned with
    | subscribed last b' head retries =>
      cases hrs : receptions hs with
      | nil =>
        -- Nothing has arrived yet, so that the start block is the one that is configured.
        have harrivals := before.arrivals_eq.1
        have hblock : b' = startBlock r hs := (before.tracks.opening rfl).1
        rw [hrs] at harrivals
        rw [startBlock, harrivals, hb] at hblock
        intro s hs'
        obtain rfl := Option.some.inj hs'
        exact hblock
      | cons s rest =>
        rw [hrs] at ih
        exact fun s' hs' => ih s' (List.getLast?_cons_cons ▸ hs')
    | unplaced _ _ log _ _ => exact last_hear log ih
    | skipped _ _ log _ _ _ _ => exact last_hear log ih
    | taken _ _ log _ _ _ _ => exact last_hear log ih
    | _ => exact ih

/-- What is handed on has arrived. -/
theorem mem_of_mem_admitted {logs : List Log} {l : Log} (h : l ∈ admitted logs) : l ∈ logs := by
  induction logs using List.reverseRecOn with
  | nil => exact h
  | append_singleton logs log ih =>
    rw [admitted_concat] at h
    split at h
    next => exact List.mem_append_left _ (ih h)
    next =>
      rcases List.mem_append.mp h with h | h
      · exact List.mem_append_left _ (ih h)
      · exact List.mem_append_right _ h

/-- What a relay hands on of its only subscription so far was sent by it. -/
theorem Run.mem_sent (h : Run r hs handed g) {s : Reception} (hs' : receptions hs = [s]) {l : Log}
    (hl : l ∈ handed ++ g.handsOn r) : l ∈ s.sent := by
  have harrivals := h.arrivals_eq.1
  rw [hs'] at harrivals
  rw [h.tracks.admits] at hl
  simpa [harrivals] using mem_of_mem_admitted hl

end Following

open Rpc

variable {s s' : Session} {transport : Transport} {interval span : Nat} {f : LogFilter}
  {b head : UInt64} {c : Collected}

/-- **Where a subscription from a block on begins**, if the node keeps to what it is asked: with
that block or with the next new one, whichever comes first. So the block is kept to where it is not
after the next new one, and else only as long as no earlier log comes in: none is held back, neither
where the node is asked for new logs nor where it sends them on its own. A relay that is configured
with a block asks for it first, and what it hands on of its first subscription begins in the same
way. -/
theorem first_block_kept (hb : f.fromBlock = some b)
    (hsubscribe : s.subscribe transport interval f span = (.ok c, s'))
    (hnode : Honest f head transport span s s') :
    Begins (min b.toNat (head.toNat + 1)) c.logs ∧
    (Begins b.toNat c.logs ↔ ∀ l, News s s' span f transport l → StartsAt b.toNat l) ∧
    ∀ (r : Relay) hs handed g start sent, Following.Run r hs handed g → r.fromBlock = some b →
      receptions hs = [⟨start, sent⟩] → start = some b ∧ (sent <+: c.logs →
        Begins (min b.toNat (head.toNat + 1)) (handed ++ g.handsOn r)) := by
  obtain ⟨w, fresh, hw, hlogs, hfresh⟩ := exists_of_subscribe hb hsubscribe
  have hpast : Begins b.toNat w.logs := hnode.past b w hb hw
  have hstream : Begins (min b.toNat (head.toNat + 1)) c.logs := by
    intro l hl p hp
    rw [hlogs, List.mem_append] at hl
    rcases hl with hl | hl
    · exact Nat.le_trans (Nat.min_le_left _ _) (hpast l hl p hp)
    · exact Nat.le_trans (Nat.min_le_right _ _) (hnode.fresh l ((hfresh l).mp hl) p hp)
  refine ⟨hstream, ⟨fun h l hl => ?_, fun h l hl => ?_⟩, ?_⟩
  · exact h l (hlogs ▸ List.mem_append_right _ ((hfresh l).mpr hl))
  · rw [hlogs, List.mem_append] at hl
    rcases hl with hl | hl
    · exact hpast l hl
    · exact h l ((hfresh l).mp hl)
  · intro r hs handed g start sent hrun hconfigured hreceptions
    refine ⟨hrun.first_start hconfigured ⟨start, sent⟩ (by rw [hreceptions]; rfl), ?_⟩
    intro hsent l hl
    exact hstream l (hsent.subset (hrun.mem_sent hreceptions hl))

/-- A line to a node that answers with the logs that are already there, and to which then comes one
more. -/
def answers (past fresh : Json) : Transport → Session
  | .http => .opening [.result (.str "0x1"), .result past, .result (.arr [fresh])]
  | .ws => { Session.opening [.result (.str "0x1"), .result past] with
      pushes := some fun _ now => ⟨[(now, fresh)], none⟩ }

/-- What is sent to it for a subscription that is over at once. -/
def asked (f : LogFilter) : Transport → List Request
  | .http => [(Question.newFilter { f with fromBlock := none }).request,
      (Question.logs f).request, (Question.changes 1).request]
  | .ws => [(Question.subscription { f with fromBlock := none }).request,
      (Question.logs f).request]

/-- The line after that. -/
def answered (past fresh : Json) (f : LogFilter) (transport : Transport) : Session :=
  ⟨0, [], (asked f transport).map fun q => (0, q), (answers past fresh transport).pushes⟩

theorem list?_singleton {w : Json} {l : Log} (hw : log? w = some l) :
    list? log? (.arr [w]) = some [l] := by
  simp [list?, hw]

/-- Over either transport the stream is the past with the fresh log behind it. -/
theorem subscribe_answers {v w : Json} {past : List Log} {fresh : Log} (hb : f.fromBlock = some b)
    (hv : list? log? v = some past) (hw : log? w = some fresh) (transport : Transport) :
    (answers v w transport).subscribe transport 1000 f 0 =
      (.ok ⟨past ++ [fresh], false⟩, answered v w f transport) := by
  have hpast : (Question.logs f).read? v = some past := hv
  cases transport with
  | ws =>
    have hnamed : (Question.subscription { f with fromBlock := none }).read? (.str "0x1") =
        some () := rfl
    have hheard : ([(0, w)].filter (·.1 ≤ 0)).filterMap (log? ·.2) = [fresh] := by simp [hw]
    simp only [answers, Session.opening, Session.subscribe, Session.watch, Session.backfill,
      Session.collect, Session.ask, Session.send, hb, hnamed, hpast, Pushed.upTo, Pushed.last,
      Nat.zero_add, hheard]
    rfl
  | http =>
    have hkept : (Question.newFilter { f with fromBlock := none }).read? (.str "0x1") = some 1 :=
      show Quantity.ofJson? 256 (.str "0x1") = some 1 by decide
    have hfresh : (Question.changes 1).read? (.arr [w]) = some [fresh] := list?_singleton hw
    simp only [answers, Session.opening, Session.subscribe, Session.watch, Session.backfill,
      Session.collect, Session.ask, Session.send, hb, hkept, hpast, Nat.zero_div, Nat.zero_add,
      poll, hfresh, Bool.false_eq_true, if_false, if_true, List.append_nil]
    rfl

/-- The response to the question for the logs that are already there. -/
theorem past_of_exchanged {v w : Json} {x : Response} (transport : Transport)
    (hx : ((Question.logs f).request, x) ∈
      (answers v w transport).exchanged (answered v w f transport)) : x = .result v := by
  have hother {q : Request} {y : Response} (hne : "eth_getLogs" ≠ q.method)
      (h : ((Question.logs f).request, x) = (q, y)) : x = .result v :=
    absurd (congrArg (·.1.method) h) hne
  cases transport with
  | ws =>
    change _ ∈ [((Question.subscription { f with fromBlock := none }).request,
      Response.result (.str "0x1")), ((Question.logs f).request, .result v)] at hx
    simp only [List.mem_cons, List.not_mem_nil, or_false] at hx
    rcases hx with hx | hx
    · exact hother (show "eth_getLogs" ≠ "eth_subscribe" by decide) hx
    · exact (Prod.mk.inj hx).2
  | http =>
    change _ ∈ [((Question.newFilter { f with fromBlock := none }).request,
      Response.result (.str "0x1")), ((Question.logs f).request, .result v),
      ((Question.changes 1).request, .result (.arr [w]))] at hx
    simp only [List.mem_cons, List.not_mem_nil, or_false] at hx
    rcases hx with hx | hx | hx
    · exact hother (show "eth_getLogs" ≠ "eth_newFilter" by decide) hx
    · exact (Prod.mk.inj hx).2
    · exact hother (show "eth_getLogs" ≠ "eth_getFilterChanges" by decide) hx

/-- The one log that comes anew. -/
theorem fresh_of_news {v w : Json} {fresh l : Log} (hw : log? w = some fresh)
    (transport : Transport)
    (hl : News (answers v w transport) (answered v w f transport) 0 f transport l) :
    l = fresh := by
  cases hl with
  | pushed h hl =>
    obtain rfl := Option.some.inj h
    simpa [Pushed.upTo, Pushed.last, hw] using hl
  | @polled x filter _ hx hq hl =>
    have hother {q : Request} {y : Response} (hne : q.method ≠ "eth_getFilterChanges")
        (h : x = (q, y)) : l = fresh := by
      subst h
      exact absurd (congrArg Request.method hq) hne
    change x ∈ [((Question.newFilter { f with fromBlock := none }).request,
      Response.result (.str "0x1")), ((Question.logs f).request, .result v),
      ((Question.changes 1).request, .result (.arr [w]))] at hx
    simp only [List.mem_cons, List.not_mem_nil, or_false] at hx
    rcases hx with hx | hx | rfl
    · exact hother (show "eth_newFilter" ≠ "eth_getFilterChanges" by decide) hx
    · exact hother (show "eth_getLogs" ≠ "eth_getFilterChanges" by decide) hx
    · have hlogs : (Response.result (.arr [w])).logs = [fresh] :=
        congrArg (Option.getD · []) (list?_singleton hw)
      exact List.mem_singleton.mp (hlogs ▸ hl)

/-- The node keeps to what it is asked if its logs do. -/
theorem honest_answers {v w : Json} {past : List Log} {fresh : Log} (hb : f.fromBlock = some b)
    (hv : list? log? v = some past) (hw : log? w = some fresh) (hpast : Begins b.toNat past)
    (hfresh : StartsAt (head.toNat + 1) fresh) (transport : Transport) :
    Honest f head transport 0 (answers v w transport) (answered v w f transport) := by
  have hv' : (Response.result v).logs = past := congrArg (Option.getD · []) hv
  refine ⟨fun b' x hb' hx => ?_, fun l hl => ?_⟩
  · obtain rfl := Option.some.inj (hb.symm.trans hb')
    obtain rfl : x = .result v := past_of_exchanged transport hx
    exact hv' ▸ hpast
  · obtain rfl : l = fresh := fresh_of_news hw transport hl
    exact hfresh

/-- A log as a node writes it, by its block. -/
def written (block : String) : Json :=
  .obj [("address", .str "0x0000000000000000000000000000000000000000"), ("topics", .arr []),
    ("data", .str "0x"), ("blockNumber", .str block), ("logIndex", .str "0x0"),
    ("transactionIndex", .str "0x0")]

/-- A log of a later block starts there. -/
theorem startsAt_logAt {block : Nat} {p : UInt64 × UInt64} (h : block ≤ p.1.toNat) :
    StartsAt block (Following.logAt p) := by
  intro p' hp'
  obtain rfl := Option.some.inj (hp'.symm.trans rfl)
  exact h

/-- Over either line a subscription from block 100 on brings a log of block 51, because the newest
block was 50 when it was opened. -/
theorem before_first_block (transport : Transport) : ∃ s s' c,
    s.subscribe transport 1000 ⟨.zero, [], some 100⟩ 0 = (.ok c, s') ∧
    Honest ⟨.zero, [], some 100⟩ 50 transport 0 s s' ∧
    c.logs = [Following.logAt (51, 0)] ∧ ¬ Begins 100 c.logs := by
  have hw : log? (written "0x33") = some (Following.logAt (51, 0)) := by decide +kernel
  refine ⟨_, _, _, subscribe_answers rfl (v := .arr []) rfl hw transport,
    honest_answers rfl rfl hw (List.forall_mem_nil _) (startsAt_logAt (by decide)) transport, rfl,
    fun h => ?_⟩
  exact absurd (h _ (List.mem_singleton_self _) _ rfl) (by decide)

/-- **A subscription from block 100 on brings a log of block 51** to a relay that asks for it. -/
theorem new_before_first_block : ∃ s s' c,
    s.subscribe .http 1000 ⟨.zero, [], some 100⟩ 0 = (.ok c, s') ∧
    Honest ⟨.zero, [], some 100⟩ 50 .http 0 s s' ∧
    c.logs = [Following.logAt (51, 0)] ∧ ¬ Begins 100 c.logs :=
  before_first_block .http

/-- A relay that is configured with block 5 hands on a log of that block, which is already there,
and then a new one that the node sends on its own. -/
theorem first_block_kept_recent : ∃ s s' c hs,
    s.subscribe .ws 1000 (Following.observer.filter (some 5)) 0 = (.ok c, s') ∧
    Honest (Following.observer.filter (some 5)) 7 .ws 0 s s' ∧
    c.logs = [(5, 0), (8, 0)].map Following.logAt ∧
    Following.Run Following.observer hs c.logs ⟨some (8, 0), some 5, .listening⟩ ∧
    receptions hs = [⟨some 5, c.logs⟩] ∧ Begins 5 c.logs := by
  have hv : list? log? (.arr [written "0x5"]) = some [Following.logAt (5, 0)] := by decide +kernel
  have hw : log? (written "0x8") = some (Following.logAt (8, 0)) := by decide +kernel
  have hpast : Begins 5 [Following.logAt (5, 0)] :=
    List.forall_mem_singleton.mpr (startsAt_logAt (by decide))
  have hsubscribe :=
    subscribe_answers (f := Following.observer.filter (some 5)) (b := 5) rfl hv hw .ws
  have hnode : Honest (Following.observer.filter (some 5)) 7 .ws 0 _ _ :=
    honest_answers (b := 5) rfl hv hw hpast (startsAt_logAt (by decide)) .ws
  have h₀ : Following.Run Following.observer _ _ _ := .start
  have h := h₀
    |>.turned (.started _ rfl)
    |>.turned (.subscribed _ _ _ _)
    |>.turned (.opened _ _ _)
    |>.turned (.taken _ _ (Following.logAt (5, 0)) (5, 0) rfl rfl rfl)
    |>.turned (.handed _ _ _)
    |>.turned (.taken _ _ (Following.logAt (8, 0)) (8, 0) rfl rfl rfl)
    |>.turned (.handed _ _ _)
  obtain ⟨-, -, hrun⟩ := first_block_kept rfl hsubscribe hnode
  exact ⟨_, _, _, _, hsubscribe, hnode, rfl, h, rfl, (hrun _ _ _ _ _ _ h rfl rfl).2 List.prefix_rfl⟩

end EventRelay.Relay
