import EventRelay.Proofs.Running
import EventRelay.Relay.Following

/-!
# What a relay does while it follows

`Following.Turned` lists every turn that a relay can take while it follows the public contract;
`Following.goes_iff_turned` says that there is no other. `Following.Run` is a run of the relay with
what happened and with the logs whose courses it started.
-/

namespace EventRelay.Relay

/-- Whether the end of the relay comes in between in a phase. -/
def Phase.yields : Phase → Bool
  | .heading | .opening .. | .retrying .. | .pausing .. | .listening => true
  | _ => false

/-- Whether what a relay waits for in a phase may still come first when it stops. -/
def Phase.isFair : Phase → Bool
  | .heading | .opening .. | .pausing .. => true
  | _ => false

namespace Following

/-- One turn of a relay that follows, by its phase. -/
inductive Turned (r : Relay) (m : Instant) : Following → Cause → Following → Prop
  | stopped (last : Option (UInt64 × UInt64)) (b : Option UInt64) (h : m.told = true) :
      Turned r m ⟨last, b, .turning⟩ .looked ⟨last, b, .leaving (.ok ())⟩
  | resumed (block index : UInt64) (b : Option UInt64) (h : m.told = false) :
      Turned r m ⟨some (block, index), b, .turning⟩ .looked
        ⟨some (block, index), some block, .opening none 0⟩
  | started (b : UInt64) (h : m.told = false) :
      Turned r m ⟨none, some b, .turning⟩ .looked ⟨none, some b, .opening none 0⟩
  | unstarted (h : m.told = false) :
      Turned r m ⟨none, none, .turning⟩ .looked ⟨none, none, .heading⟩
  | headed (last : Option (UInt64 × UInt64)) (b : Option UInt64) (head : UInt64) :
      Turned r m ⟨last, b, .heading⟩ (.answered .pub .blockNumber (.ok head))
        ⟨last, b, .opening (some head) 0⟩
  | unheaded (last : Option (UInt64 × UInt64)) (b : Option UInt64) (e : ChainError) :
      Turned r m ⟨last, b, .heading⟩ (.answered .pub .blockNumber (.error e))
        ⟨last, b, .opening none 0⟩
  | subscribed (last : Option (UInt64 × UInt64)) (b head : Option UInt64) (retries : Nat) :
      Turned r m ⟨last, b, .opening head retries⟩
        (.answered .pub (.subscribe (r.filter b)) (.ok ())) ⟨last, b, .opened head⟩
  | refused (last : Option (UInt64 × UInt64)) (b head : Option UInt64) (retries : Nat)
      (e : ChainError) (hr : retries < maxRetries) :
      Turned r m ⟨last, b, .opening head retries⟩
        (.answered .pub (.subscribe (r.filter b)) (.error e)) ⟨last, b, .retrying head retries⟩
  | givenUp (last : Option (UInt64 × UInt64)) (b head : Option UInt64) (retries : Nat)
      (e : ChainError) (hr : ¬ retries < maxRetries) :
      Turned r m ⟨last, b, .opening head retries⟩
        (.answered .pub (.subscribe (r.filter b)) (.error e))
        ⟨last, b, .leaving (.error (.subscription e.message))⟩
  | backedOff (last : Option (UInt64 × UInt64)) (b head : Option UInt64) (retries : Nat)
      (h : m.stopping = false) :
      Turned r m ⟨last, b, .retrying head retries⟩ .looked
        ⟨last, b, .pausing head (retries + 1) (m.now + retryPause retries)⟩
  | retried (last : Option (UInt64 × UInt64)) (b head : Option UInt64) (retries time : Nat)
      (ht : time ≤ m.now) :
      Turned r m ⟨last, b, .pausing head retries time⟩ .resumed ⟨last, b, .opening head retries⟩
  | opened (last : Option (UInt64 × UInt64)) (b head : Option UInt64) :
      Turned r m ⟨last, b, .opened head⟩ (.counted .opened) ⟨last, b <|> head, .listening⟩
  | ended (last : Option (UInt64 × UInt64)) (b : Option UInt64) (h : m.stopping = false) :
      Turned r m ⟨last, b, .listening⟩ (.received .pub none) ⟨last, b, .turning⟩
  | unplaced (last : Option (UInt64 × UInt64)) (b : Option UInt64) (log : Log)
      (h : m.stopping = false) (hp : log.position? = none) :
      Turned r m ⟨last, b, .listening⟩ (.received .pub (some log)) ⟨last, b, .handing log⟩
  | skipped (last : Option (UInt64 × UInt64)) (b : Option UInt64) (log : Log)
      (p : UInt64 × UInt64) (h : m.stopping = false) (hp : log.position? = some p)
      (hlast : last.any (atOrBefore p) = true) :
      Turned r m ⟨last, b, .listening⟩ (.received .pub (some log)) ⟨last, b, .listening⟩
  | taken (last : Option (UInt64 × UInt64)) (b : Option UInt64) (log : Log)
      (p : UInt64 × UInt64) (h : m.stopping = false) (hp : log.position? = some p)
      (hlast : last.any (atOrBefore p) = false) :
      Turned r m ⟨last, b, .listening⟩ (.received .pub (some log)) ⟨some p, b, .handing log⟩
  | handed (last : Option (UInt64 × UInt64)) (b : Option UInt64) (log : Log) :
      Turned r m ⟨last, b, .handing log⟩ .spawned ⟨last, b, .listening⟩
  | left (last : Option (UInt64 × UInt64)) (b : Option UInt64) (result : Except RelayError Unit) :
      Turned r m ⟨last, b, .leaving result⟩ .joined ⟨last, b, .done result⟩
  | cancelled (f : Following) (h : m.stopping = true) (hf : f.phase.yields = true) :
      Turned r m f (.cancelled (f.turn r).demand.question?) { f with phase := .leaving (.ok ()) }

variable {r : Relay} {m : Instant} {f f' : Following} {c : Cause} {t : Task}

/-- A turn that ends with the relay is met, or cut short when the relay stops. If it is fair it may
be met also then. -/
theorem goes_until_iff {d : Demand Task} {fair : Bool} :
    Turn.Goes m { f.untilStopped d with fair := fair } c t ↔
      (fair = true ∨ m.stopping = false) ∧ d.Met m c t ∨
      m.stopping = true ∧ c = .cancelled d.question? ∧ t = f.enter (.leaving (.ok ())) := by
  have hhalted : Turn.halted { f.untilStopped d with fair := fair } m =
      if m.stopping then some (f.enter (.leaving (.ok ()))) else none := rfl
  constructor
  · intro h
    cases h with
    | late h => cases h
    | cancelled _ h =>
      rw [hhalted] at h
      split at h
      next hs => exact .inr ⟨hs, rfl, (Option.some.inj h).symm⟩
      next => cases h
    | met _ hs h =>
      rw [hhalted] at hs
      refine .inl ⟨hs.imp_right fun hs => ?_, h⟩
      split at hs
      next => cases hs
      next hn => simpa using hn
  · intro h
    obtain ⟨hs, h⟩ | ⟨hs, rfl, rfl⟩ := h
    · exact .met rfl (hs.imp_right fun hs => by rw [hhalted, hs]; rfl) h
    · exact .cancelled rfl (by rw [hhalted, if_pos hs])

/-- Each phase that yields goes on as its demand is met, or ends when the relay stops. -/
theorem goes_of_yields (h : f.phase.yields = true) :
    (f.turn r).Goes m c t ↔
      (f.phase.isFair = true ∨ m.stopping = false) ∧ (f.turn r).demand.Met m c t ∨
      m.stopping = true ∧ c = .cancelled (f.turn r).demand.question? ∧
        t = f.enter (.leaving (.ok ())) := by
  obtain ⟨last, b, phase⟩ := f
  cases phase <;> first | exact goes_until_iff | cases h

theorem goes_of_met (hy : f.phase.yields = true) (hs : f.phase.isFair = true ∨ m.stopping = false)
    (h : (f.turn r).demand.Met m c t) : (f.turn r).Goes m c t :=
  (goes_of_yields hy).mpr (.inl ⟨hs, h⟩)

theorem take_unplaced {log : Log} (hp : log.position? = none) :
    f.take (some log) = f.enter (.handing log) := by
  simp only [take, hp]

theorem take_skipped {log : Log} {p : UInt64 × UInt64} (hp : log.position? = some p)
    (hl : f.last.any (atOrBefore p) = true) : f.take (some log) = f.enter .listening := by
  simp only [take, hp, hl, if_true]

theorem take_taken {log : Log} {p : UInt64 × UInt64} (hp : log.position? = some p)
    (hl : f.last.any (atOrBefore p) = false) :
    f.take (some log) = { f with last := some p }.enter (.handing log) := by
  simp only [take, hp, hl, Bool.false_eq_true, if_false]

/-- A relay that follows takes no other turn. -/
theorem turned_of_goes (h : (f.turn r).Goes m c t) :
    ∃ f', t = .following f' ∧ Turned r m f c f' := by
  by_cases hy : f.phase.yields = true
  · -- The demand of the phase is met, or the relay stops first.
    rcases (goes_of_yields hy).mp h with ⟨hs, hmet⟩ | ⟨hs, rfl, rfl⟩
    · obtain ⟨last, b, phase⟩ := f
      cases phase with
      | heading =>
        cases hmet with
        | ask _ _ _ reply =>
          cases reply with
          | error e => exact ⟨_, rfl, .unheaded last b e⟩
          | ok head => exact ⟨_, rfl, .headed last b head⟩
      | opening head retries =>
        cases hmet with
        | ask _ _ _ reply =>
          cases reply with
          | ok _ => exact ⟨_, rfl, .subscribed last b head retries⟩
          | error e =>
            by_cases hr : retries < maxRetries
            · exact ⟨_, if_pos hr, .refused last b head retries e hr⟩
            · exact ⟨_, if_neg hr, .givenUp last b head retries e hr⟩
      | retrying head retries =>
        cases hmet
        exact ⟨_, rfl, .backedOff last b head retries (hs.resolve_left nofun)⟩
      | pausing head retries time =>
        cases hmet with
        | pause _ _ ht => exact ⟨_, rfl, .retried last b head retries time ht⟩
      | listening =>
        have hs : m.stopping = false := hs.resolve_left nofun
        cases hmet with
        | receive _ _ log =>
          cases log with
          | none => exact ⟨_, rfl, .ended last b hs⟩
          | some log =>
            cases hp : log.position? with
            | none => exact ⟨_, take_unplaced hp, .unplaced last b log hs hp⟩
            | some p =>
              cases hl : last.any (atOrBefore p) with
              | true => exact ⟨_, take_skipped hp hl, .skipped last b log p hs hp hl⟩
              | false => exact ⟨_, take_taken hp hl, .taken last b log p hs hp hl⟩
      | _ => cases hy
    · exact ⟨_, rfl, .cancelled f hs hy⟩
  · -- The other phases are plain turns: the end of the relay does not come in between.
    obtain ⟨last, b, phase⟩ := f
    cases phase with
    | turning =>
      cases Turn.goes_plain.mp h
      cases ht : m.told with
      | true => exact ⟨_, rfl, .stopped last b ht⟩
      | false =>
        cases last with
        | some p => exact ⟨_, rfl, .resumed p.1 p.2 b ht⟩
        | none =>
          cases b with
          | some b => exact ⟨_, rfl, .started b ht⟩
          | none => exact ⟨_, rfl, .unstarted ht⟩
    | opened head => cases Turn.goes_plain.mp h; exact ⟨_, rfl, .opened last b head⟩
    | handing log => cases Turn.goes_plain.mp h; exact ⟨_, rfl, .handed last b log⟩
    | leaving result => cases Turn.goes_plain.mp h; exact ⟨_, rfl, .left last b result⟩
    | done result => exact absurd h not_goes_nothing
    | _ => exact absurd rfl hy

theorem Turned.goes (h : Turned r m f c f') : (f.turn r).Goes m c (.following f') := by
  cases h with
  | stopped last b h => exact Turn.goes_plain.mpr ((Demand.Met.look _).to (by rw [h]; rfl))
  | resumed block index b h => exact Turn.goes_plain.mpr ((Demand.Met.look _).to (by rw [h]; rfl))
  | started b h => exact Turn.goes_plain.mpr ((Demand.Met.look _).to (by rw [h]; rfl))
  | unstarted h => exact Turn.goes_plain.mpr ((Demand.Met.look _).to (by rw [h]; rfl))
  | headed last b head => exact goes_of_met rfl (.inl rfl) (.ask _ .blockNumber _ (.ok head))
  | unheaded last b e => exact goes_of_met rfl (.inl rfl) (.ask _ .blockNumber _ (.error e))
  | subscribed last b head retries =>
    exact goes_of_met rfl (.inl rfl) (.ask _ (.subscribe _) _ (.ok ()))
  | refused last b head retries e hr =>
    exact goes_of_met rfl (.inl rfl)
      ((Demand.Met.ask _ (.subscribe _) _ (.error e)).to (if_pos hr))
  | givenUp last b head retries e hr =>
    exact goes_of_met rfl (.inl rfl)
      ((Demand.Met.ask _ (.subscribe _) _ (.error e)).to (if_neg hr))
  | backedOff last b head retries h => exact goes_of_met rfl (.inr h) (.look _)
  | retried last b head retries time ht => exact goes_of_met rfl (.inl rfl) (.pause _ _ ht)
  | opened last b head => exact Turn.goes_plain.mpr (.count _ _)
  | ended last b h => exact goes_of_met rfl (.inr h) (.receive _ _ none)
  | unplaced last b log h hp =>
    exact goes_of_met rfl (.inr h) ((Demand.Met.receive _ _ (some log)).to (take_unplaced hp))
  | skipped last b log p h hp hlast =>
    exact goes_of_met rfl (.inr h) ((Demand.Met.receive _ _ (some log)).to (take_skipped hp hlast))
  | taken last b log p h hp hlast =>
    exact goes_of_met rfl (.inr h) ((Demand.Met.receive _ _ (some log)).to (take_taken hp hlast))
  | handed last b log => exact Turn.goes_plain.mpr (.spawn _ _)
  | left last b result => exact Turn.goes_plain.mpr (.join _)
  | cancelled f h hf => exact (goes_of_yields hf).mpr (.inr ⟨h, rfl, rfl⟩)

/-- **A relay that follows takes the listed turns and no other.** -/
theorem goes_iff_turned : (f.turn r).Goes m c (.following f') ↔ Turned r m f c f' := by
  constructor
  · intro h
    obtain ⟨f'', heq, hturned⟩ := turned_of_goes h
    obtain rfl := Task.following.inj heq
    exact hturned
  · exact Turned.goes

/-! ## Runs -/

/-- The log whose course the relay starts in its next turn, if it does. -/
def handsOn (r : Relay) (f : Following) : List Log :=
  match (f.turn r).demand with
  | .spawn (.course (.arriving log)) _ => [log]
  | _ => []

/-- A run of a relay that follows, with what happened and with the logs whose courses it started. -/
inductive Run (r : Relay) : List Happening → List Log → Following → Prop
  | start : Run r [] [] (start r)
  | turn {hs : List Happening} {handed : List Log} {f f' : Following} {h : Happening}
      (before : Run r hs handed f) (goes : (f.turn r).Goes h.moment h.cause (.following f')) :
      Run r (hs ++ [h]) (handed ++ f.handsOn r) f'

end Following

/-- What was received of one subscription. -/
structure Reception where
  /-- The block that the subscription was to begin with, if one was asked for. -/
  start : Option UInt64
  sent : List Log

/-- Takes in what a subscription does; the present one is in front. -/
def Reception.hear (rs : List Reception) : Cause → List Reception
  | .answered .pub (.subscribe filter) (.ok _) => ⟨filter.fromBlock, []⟩ :: rs
  | .received .pub (some log) =>
    match rs with
    | [] => []
    | s :: rest => ⟨s.start, s.sent ++ [log]⟩ :: rest
  | _ => rs

/-- What was received of each subscription to the public contract, the last one in front. -/
def receptions (hs : List Happening) : List Reception :=
  hs.foldl (fun rs h => Reception.hear rs h.cause) []

/-- What the node of the public side answered when it was asked for the newest block. -/
def newest? : Cause → Option (Except ChainError UInt64)
  | .answered .pub .blockNumber reply => some reply
  | _ => none

/-- The answers of the node of the public side about the newest block. -/
def heads (hs : List Happening) : List (Except ChainError UInt64) :=
  hs.filterMap fun h => newest? h.cause

/-- The log was sent by one of the subscriptions. -/
def Received (rs : List Reception) (l : Log) : Prop := ∃ s ∈ rs, l ∈ s.sent

theorem received_hear {s : Reception} {rest : List Reception} {l x : Log} :
    Received (Reception.hear (s :: rest) (.received .pub (some l))) x ↔
      Received (s :: rest) x ∨ x = l := by
  simp only [Received, Reception.hear, List.mem_cons, exists_eq_or_imp, List.mem_append,
    List.not_mem_nil, or_false]
  rw [or_assoc, or_assoc, or_comm (a := x = l)]

theorem receptions_concat (hs : List Happening) (h : Happening) :
    receptions (hs ++ [h]) = Reception.hear (receptions hs) h.cause :=
  List.foldl_append

theorem heads_concat (hs : List Happening) (h : Happening) :
    heads (hs ++ [h]) = heads hs ++ (newest? h.cause).toList := by
  rw [heads, List.filterMap_append, heads]
  cases hh : newest? h.cause <;> simp [hh]

end EventRelay.Relay
