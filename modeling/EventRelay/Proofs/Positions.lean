import EventRelay.Proofs.Delivery

/-!
# No position is handed on twice

Nothing is assumed here of what a subscription sends: the logs may be out of order, repeated, from
any block, and without a position. `admitted` says which of the logs that arrive are handed on, and
`startBlock` from which block a relay subscribes after what happened. `Tracks` ties both to the loop
of a relay that follows.

Main statements:

* `Following.handed_on_once`: the relay hands on the logs that are admitted, at strictly increasing
  positions, and every subscription is asked for from the start block;
* `Following.first_from_newest`: the opening at which the newest block is read for the first time
  does not begin with that block.
-/

namespace EventRelay.Relay

/-! ## The logs that are handed on -/

/-- The last position among logs. -/
def lastPosition (logs : List Log) : Option (UInt64 × UInt64) :=
  (logs.filterMap Log.position?).getLast?

/-- Whether a log is passed over when others were handed on: it stands somewhere, and not after the
last position among these. -/
def isPassedOver (given : List Log) (log : Log) : Bool :=
  log.position?.any fun p => (lastPosition given).any fun q => !decide (Precedes q p)

/-- The logs that are handed on, of those that arrive. -/
def admitted (logs : List Log) : List Log :=
  logs.foldl (fun given log => if isPassedOver given log then given else given ++ [log]) []

/-- A log is admitted unless it is passed over. -/
theorem admitted_concat (logs : List Log) (log : Log) :
    admitted (logs ++ [log]) =
      if isPassedOver (admitted logs) log then admitted logs else admitted logs ++ [log] :=
  List.foldl_append

theorem lastPosition_concat {logs : List Log} {log : Log} {p : UInt64 × UInt64}
    (hp : log.position? = some p) : lastPosition (logs ++ [log]) = some p := by
  simp [lastPosition, List.filterMap_append, hp]

/-- A log without a position does not move the last one. -/
theorem lastPosition_unplaced {logs : List Log} {log : Log} (hp : log.position? = none) :
    lastPosition (logs ++ [log]) = lastPosition logs := by
  simp [lastPosition, List.filterMap_append, hp]

/-- The positions of logs, in their order, go forward only. -/
def Ascending (logs : List Log) : Prop := (logs.filterMap Log.position?).Pairwise Precedes

/-- A position is passed over unless it is behind the last one. -/
theorem atOrBefore_eq (p q : UInt64 × UInt64) : atOrBefore p q = !decide (Precedes q p) := by
  have hiff : atOrBefore p q = true ↔ ¬ Precedes q p := by
    rw [atOrBefore_iff, precedes_iff]
    omega
  rw [Bool.eq_iff_iff, hiff]
  simp

/-- A placed log is passed over by the last position. -/
theorem isPassedOver_of_position {logs : List Log} {log : Log} {p : UInt64 × UInt64}
    (hp : log.position? = some p) :
    isPassedOver logs log = (lastPosition logs).any (atOrBefore p) := by
  rw [isPassedOver, hp, Option.any_some]
  congr 1
  funext q
  exact (atOrBefore_eq p q).symm

/-- In an ascending list every position stands at or before the last one. -/
theorem Ascending.le_last {logs : List Log} (h : Ascending logs) {p q : UInt64 × UInt64}
    (hp : p ∈ logs.filterMap Log.position?) (hq : lastPosition logs = some q) :
    rank p ≤ rank q := by
  obtain ⟨front, hfront⟩ := List.getLast?_eq_some_iff.mp hq
  unfold Ascending at h
  rw [hfront] at h hp
  rcases List.mem_append.mp hp with hp | hp
  · have hpq := (List.pairwise_append.mp h).2.2 p hp q (List.mem_singleton_self q)
    exact Nat.le_of_lt (precedes_iff.mp hpq)
  · obtain rfl := List.mem_singleton.mp hp
    exact Nat.le_refl _

/-- A log that is not passed over stands after all before it. -/
theorem Ascending.concat {logs : List Log} {log : Log} (h : Ascending logs)
    (hnew : isPassedOver logs log = false) : Ascending (logs ++ [log]) := by
  unfold Ascending
  rw [List.filterMap_append]
  cases hp : log.position? with
  | none =>
    rw [List.filterMap_cons_none hp, List.filterMap_nil, List.append_nil]
    exact h
  | some p =>
    rw [isPassedOver, hp, Option.any_some] at hnew
    rw [List.filterMap_cons_some hp, List.filterMap_nil]
    refine List.pairwise_append.mpr ⟨h, List.pairwise_singleton _ _, fun q hq p' hp' => ?_⟩
    rw [List.mem_singleton.mp hp']
    cases hlast : lastPosition logs with
    | none =>
      rw [List.getLast?_eq_none_iff.mp hlast] at hq
      cases hq
    | some o =>
      -- `q` stands at or before the last position, and that before the new one.
      have hqo := h.le_last hq hlast
      rw [hlast] at hnew
      have hop : Precedes o p := by simpa using hnew
      rw [precedes_iff] at hop ⊢
      omega

theorem ascending_foldl {logs given : List Log} (h : Ascending given) :
    Ascending (logs.foldl (fun given log =>
      if isPassedOver given log then given else given ++ [log]) given) := by
  induction logs generalizing given with
  | nil => exact h
  | cons log logs ih =>
    rw [List.foldl_cons]
    apply ih
    split
    next => exact h
    next hnew => exact h.concat (Bool.eq_false_iff.mpr hnew)

/-- **The logs that are handed on stand at strictly increasing positions.** -/
theorem ascending_admitted (logs : List Log) : Ascending (admitted logs) :=
  ascending_foldl List.Pairwise.nil

/-- What was handed on stays so when more logs arrive. -/
theorem admitted_isPrefix (logs more : List Log) : admitted logs <+: admitted (logs ++ more) := by
  induction more generalizing logs with
  | nil =>
    exact ⟨[], by rw [List.append_nil, List.append_nil]⟩
  | cons log more ih =>
    have hsplit : logs ++ log :: more = (logs ++ [log]) ++ more := by simp
    have hstep : admitted logs <+: admitted (logs ++ [log]) := by
      rw [admitted_concat]
      split
      · exact List.prefix_rfl
      · exact List.prefix_append _ _
    rw [hsplit]
    exact hstep.trans (ih _)

/-- The last position never goes back. -/
theorem lastPosition_le {logs : List Log} {p : UInt64 × UInt64} (more : List Log)
    (hp : lastPosition (admitted logs) = some p) :
    ∃ q, lastPosition (admitted (logs ++ more)) = some q ∧ rank p ≤ rank q := by
  obtain ⟨rest, hrest⟩ := admitted_isPrefix logs more
  have hmem : p ∈ (admitted (logs ++ more)).filterMap Log.position? := by
    rw [← hrest, List.filterMap_append]
    exact List.mem_append_left _ (List.mem_of_getLast? hp)
  obtain ⟨q, hq⟩ := Option.isSome_iff_exists.mp (List.getLast?_isSome.mpr (List.ne_nil_of_mem hmem))
  exact ⟨q, hq, (ascending_admitted _).le_last hmem hq⟩

/-! ## What arrives, and where a subscription begins -/

/-- The log that the public side's subscription sent. -/
def arrival? : Cause → Option Log
  | .received .pub log => log
  | _ => none

/-- The logs that the public side's subscriptions sent, in the order in which they arrived. -/
def arrivals (hs : List Happening) : List Log := hs.filterMap fun h => arrival? h.cause

/-- Whether a subscription was opened. -/
def opens : Cause → Bool
  | .counted .opened => true
  | _ => false

/-- What happened up to the last opening of a subscription. -/
def upToOpening (hs : List Happening) : List Happening :=
  (hs.reverse.dropWhile fun h => !opens h.cause).reverse

/-- The newest block as the node of the public side said it first. -/
def firstHead (hs : List Happening) : Option UInt64 := (heads hs).findSome? Except.toOption

/-- The block from which a relay subscribes after what happened: that of the last log handed on that
stood somewhere, else the configured one, else the newest one as it was first read at an opening
before. -/
def startBlock (r : Relay) (hs : List Happening) : Option UInt64 :=
  ((lastPosition (admitted (arrivals hs))).map (·.1)).or
    (r.fromBlock.or (firstHead (upToOpening hs)))

theorem arrivals_concat (hs : List Happening) (x : Happening) :
    arrivals (hs ++ [x]) = arrivals hs ++ (arrival? x.cause).toList := by
  rw [arrivals, List.filterMap_append, arrivals]
  cases hx : arrival? x.cause <;> simp [hx]

theorem upToOpening_concat (hs : List Happening) (x : Happening) :
    upToOpening (hs ++ [x]) = if opens x.cause then hs ++ [x] else upToOpening hs := by
  unfold upToOpening
  rw [List.reverse_append, List.reverse_singleton, List.singleton_append, List.dropWhile_cons]
  cases opens x.cause <;> simp

/-- The happenings up to the last opening come first. -/
theorem upToOpening_isPrefix (hs : List Happening) : upToOpening hs <+: hs := by
  have h := List.dropWhile_suffix (fun h : Happening => !opens h.cause) (l := hs.reverse)
  rw [upToOpening, ← List.reverse_suffix, List.reverse_reverse]
  exact h

theorem firstHead_concat (hs : List Happening) (x : Happening) :
    firstHead (hs ++ [x]) = (firstHead hs).or ((newest? x.cause).bind Except.toOption) := by
  rw [firstHead, heads_concat, List.findSome?_append, firstHead]
  cases newest? x.cause <;> simp

/-- A head that is known stays the first one. -/
theorem firstHead_of_prefix {hs hs' : List Happening} (h : hs <+: hs') {b : UInt64}
    (hb : firstHead hs = some b) : firstHead hs' = some b := by
  obtain ⟨rest, rfl⟩ := h
  rw [firstHead, heads, List.filterMap_append, List.findSome?_append]
  have hfirst : (hs.filterMap fun h => newest? h.cause).findSome? Except.toOption = some b := hb
  rw [hfirst, Option.some_or]

/-- Whether the relay has a subscription or is about to turn to the next one. -/
def Phase.isBetween : Phase → Bool
  | .turning | .listening | .handing _ => true
  | _ => false

/-- Whether the relay is opening a subscription. -/
def Phase.isOpening : Phase → Bool
  | .heading | .opening .. | .retrying .. | .pausing .. | .opened _ => true
  | _ => false

/-- The newest block as it was read at the opening under way. -/
def Phase.head : Phase → Option UInt64
  | .opening head _ | .retrying head _ | .pausing head _ _ | .opened head => head
  | _ => none

/-- What a relay that follows keeps of what happened: the last position among the logs given, which
are those handed on and the one about to be, and where to subscribe from. -/
structure Tracks (r : Relay) (hs : List Happening) (given : List Log) (f : Following) : Prop where
  admits : given = admitted (arrivals hs)
  last : f.last = lastPosition given
  /-- Between two openings no newest block is read, and the block to subscribe from stands as long
  as nothing with a position was handed on. -/
  between : f.phase.isBetween = true →
    firstHead hs = firstHead (upToOpening hs) ∧ (f.last = none → f.fromBlock = startBlock r hs)
  /-- At an opening the relay subscribes from the start block. Where there is none, the newest block
  that was read at this opening is the first one that was read at all. -/
  opening : f.phase.isOpening = true →
    f.fromBlock = startBlock r hs ∧ (f.fromBlock = none → firstHead hs = f.phase.head)

namespace Tracks

variable {r : Relay} {hs : List Happening} {given : List Log} {f f' : Following} {x : Happening}
  {last : Option (UInt64 × UInt64)} {b : Option UInt64} {phase : Phase}

theorem startBlock_concat (ha : arrival? x.cause = none) (ho : opens x.cause = false) :
    startBlock r (hs ++ [x]) = startBlock r hs := by
  rw [startBlock, arrivals_concat, ha, upToOpening_concat, ho, startBlock]
  simp

/-- A turn in which nothing arrives and no subscription is opened. -/
theorem quiet (h : Tracks r hs given f) (ha : arrival? x.cause = none)
    (ho : opens x.cause = false) (hf : f'.handsOn r = []) (hlast : f'.last = f.last)
    (hbetween : f'.phase.isBetween = true → firstHead (hs ++ [x]) = firstHead (upToOpening hs) ∧
      (f'.last = none → f'.fromBlock = startBlock r hs))
    (hopening : f'.phase.isOpening = true → f'.fromBlock = startBlock r hs ∧
      (f'.fromBlock = none → firstHead (hs ++ [x]) = f'.phase.head)) :
    Tracks r (hs ++ [x]) (given ++ f'.handsOn r) f' := by
  rw [hf, List.append_nil]
  refine ⟨?_, hlast.trans h.last, ?_, ?_⟩
  · rw [arrivals_concat, ha, Option.toList_none, List.append_nil]
    exact h.admits
  · rw [upToOpening_concat, ho, startBlock_concat ha ho]
    exact hbetween
  · rw [startBlock_concat ha ho]
    exact hopening

/-- A turn to the end of the run. -/
theorem leave (h : Tracks r hs given f) (ha : arrival? x.cause = none)
    (ho : opens x.cause = false) (hf : f'.handsOn r = []) (hlast : f'.last = f.last)
    (hbetween : f'.phase.isBetween = false) (hopening : f'.phase.isOpening = false) :
    Tracks r (hs ++ [x]) (given ++ f'.handsOn r) f' := by
  refine h.quiet ha ho hf hlast ?_ ?_
  · rw [hbetween]
    exact Bool.noConfusion
  · rw [hopening]
    exact Bool.noConfusion

/-- A turn in which the relay stays with its subscription, or loses it. -/
theorem stay (h : Tracks r hs given f) (hb : f.phase.isBetween = true)
    (ha : arrival? x.cause = none) (ho : opens x.cause = false) (hn : newest? x.cause = none)
    (hf : f'.handsOn r = []) (hlast : f'.last = f.last) (hblock : f'.fromBlock = f.fromBlock)
    (hopening : f'.phase.isOpening = false) :
    Tracks r (hs ++ [x]) (given ++ f'.handsOn r) f' := by
  obtain ⟨hhead, hstart⟩ := h.between hb
  refine h.quiet ha ho hf hlast (fun _ => ⟨?_, ?_⟩) ?_
  · rw [firstHead_concat, hn, ← hhead]
    exact Option.or_none
  · rw [hlast, hblock]
    exact hstart
  · rw [hopening]
    exact Bool.noConfusion

/-- A turn at an opening that reads no newest block. -/
theorem keep (h : Tracks r hs given f) (hb : f.phase.isOpening = true)
    (ha : arrival? x.cause = none) (ho : opens x.cause = false) (hn : newest? x.cause = none)
    (hf : f'.handsOn r = []) (hlast : f'.last = f.last) (hblock : f'.fromBlock = f.fromBlock)
    (hhead : f'.phase.head = f.phase.head) (hbetween : f'.phase.isBetween = false) :
    Tracks r (hs ++ [x]) (given ++ f'.handsOn r) f' := by
  obtain ⟨hstart, hfirst⟩ := h.opening hb
  refine h.quiet ha ho hf hlast ?_ (fun _ => ⟨?_, ?_⟩)
  · rw [hbetween]
    exact Bool.noConfusion
  · rw [hblock]
    exact hstart
  · rw [firstHead_concat, hn, hblock, hhead]
    exact fun hnone => (Option.or_none).trans (hfirst hnone)

/-- A turn in which the newest block is asked for. -/
theorem read {reply : Except ChainError UInt64} (h : Tracks r hs given ⟨last, b, .heading⟩)
    (hx : x.cause = .answered .pub .blockNumber reply)
    (hf : f' = ⟨last, b, .opening reply.toOption 0⟩) :
    Tracks r (hs ++ [x]) (given ++ f'.handsOn r) f' := by
  obtain ⟨hstart, hfirst⟩ := h.opening rfl
  have hquiet : arrival? x.cause = none ∧ opens x.cause = false := by simp [hx, arrival?, opens]
  subst hf
  refine h.quiet hquiet.1 hquiet.2 rfl rfl Bool.noConfusion fun _ => ⟨hstart, fun hnone => ?_⟩
  -- none was known before
  have hbefore : firstHead hs = none := hfirst hnone
  rw [firstHead_concat, hx, hbefore]
  rfl

/-- A log that arrives is admitted or passed over, as the relay does with it. -/
theorem arrive {log : Log} (h : Tracks r hs given ⟨last, b, .listening⟩)
    (hx : x.cause = .received .pub (some log))
    (hopening : f'.phase.isOpening = false) (hblock : f'.fromBlock = b)
    (hgiven : given ++ f'.handsOn r = admitted (arrivals hs ++ [log]))
    (hlast : f'.last = lastPosition (given ++ f'.handsOn r)) :
    Tracks r (hs ++ [x]) (given ++ f'.handsOn r) f' := by
  have harrive : arrivals (hs ++ [x]) = arrivals hs ++ [log] := by
    rw [arrivals_concat, hx]
    rfl
  have hup : upToOpening (hs ++ [x]) = upToOpening hs := by
    rw [upToOpening_concat, hx]
    rfl
  obtain ⟨hhead, hstart⟩ := h.between rfl
  refine ⟨harrive ▸ hgiven, hlast, fun _ => ⟨?_, fun hnone => ?_⟩, ?_⟩
  · rw [firstHead_concat, hx, hup, ← hhead]
    exact Option.or_none
  · -- Nothing with a position was handed on, neither now nor before.
    rw [hlast, hgiven] at hnone
    have hbefore : last = none := by
      cases hl : last with
      | none => rfl
      | some p =>
        have hp : lastPosition (admitted (arrivals hs)) = some p := by
          rw [← h.admits, ← h.last]
          exact hl
        obtain ⟨q, hq, -⟩ := lastPosition_le [log] hp
        rw [hnone] at hq
        cases hq
    have hlast' : lastPosition (admitted (arrivals hs)) = none := by
      rw [← h.admits, ← h.last]
      exact hbefore
    have hstart' : b = startBlock r hs := hstart hbefore
    rw [hblock, hstart', startBlock, startBlock, harrive, hup, hnone, hlast']
  · rw [hopening]
    exact Bool.noConfusion

/-- When a subscription is opened the newest block that was read for it counts as known. -/
theorem opened {head : Option UInt64} (h : Tracks r hs given ⟨last, b, .opened head⟩)
    (hx : opens x.cause = true) (ha : arrival? x.cause = none) (hn : newest? x.cause = none) :
    Tracks r (hs ++ [x]) given ⟨last, b <|> head, .listening⟩ := by
  obtain ⟨hblock, hhead⟩ := h.opening rfl
  have harrive : arrivals (hs ++ [x]) = arrivals hs := by
    rw [arrivals_concat, ha, Option.toList_none, List.append_nil]
  have hup : upToOpening (hs ++ [x]) = hs ++ [x] := by
    rw [upToOpening_concat, if_pos hx]
  have hfirst : firstHead (hs ++ [x]) = firstHead hs := by
    rw [firstHead_concat, hn]
    exact Option.or_none
  refine ⟨harrive ▸ h.admits, h.last, fun _ => ⟨by rw [hup], fun hnone => ?_⟩, Bool.noConfusion⟩
  have hlast : lastPosition (admitted (arrivals hs)) = none := by
    rw [← h.admits, ← h.last]
    exact hnone
  have hb : b = r.fromBlock.or (firstHead (upToOpening hs)) := by
    have := hblock
    rw [startBlock, hlast] at this
    exact this
  show (b <|> head) = _
  rw [startBlock, harrive, hlast, hup, hfirst, Option.map_none, Option.none_or,
    Option.orElse_eq_orElse, Option.orElse_eq_or]
  cases hr : r.fromBlock with
  | some n =>
    rw [hb, hr]
    rfl
  | none =>
    rw [hr, Option.none_or] at hb
    cases hup : firstHead (upToOpening hs) with
    | some n => rw [hb, hup, firstHead_of_prefix (upToOpening_isPrefix hs) hup]; rfl
    | none =>
      have hnone : b = none := hb.trans hup
      rw [hhead hnone, hnone]
      rfl

/-- **Every turn keeps the invariant.** -/
theorem turned {m : Instant} {c : Cause} (h : Tracks r hs given f)
    (ht : Following.Turned r m f c f') :
    Tracks r (hs ++ [⟨m, c⟩]) (given ++ f'.handsOn r) f' := by
  cases ht with
  | stopped last b _ => exact h.leave rfl rfl rfl rfl rfl rfl
  | resumed block index b _ =>
    -- The block of the last log handed on is the start block.
    have hlast : lastPosition (admitted (arrivals hs)) = some (block, index) := by
      rw [← h.admits]
      exact h.last.symm
    refine h.quiet rfl rfl rfl rfl Bool.noConfusion fun _ => ⟨?_, nofun⟩
    rw [startBlock, hlast]
    rfl
  | started b _ =>
    obtain ⟨-, hstart⟩ := h.between rfl
    exact h.quiet rfl rfl rfl rfl Bool.noConfusion fun _ => ⟨hstart rfl, nofun⟩
  | unstarted _ =>
    obtain ⟨hhead, hstart⟩ := h.between rfl
    refine h.quiet rfl rfl rfl rfl Bool.noConfusion fun _ => ⟨hstart rfl, fun _ => ?_⟩
    -- No newest block was known at an opening before, so none was read at all.
    have hnone : startBlock r hs = none := (hstart rfl).symm
    rw [startBlock, Option.or_eq_none_iff, Option.or_eq_none_iff] at hnone
    rw [firstHead_concat, hhead, hnone.2.2]
    rfl
  | headed last b head => exact h.read rfl rfl
  | unheaded last b e => exact h.read rfl rfl
  | subscribed last b head retries => exact h.keep rfl rfl rfl rfl rfl rfl rfl rfl rfl
  | refused last b head retries e _ => exact h.keep rfl rfl rfl rfl rfl rfl rfl rfl rfl
  | givenUp last b head retries e _ => exact h.leave rfl rfl rfl rfl rfl rfl
  | backedOff last b head retries _ => exact h.keep rfl rfl rfl rfl rfl rfl rfl rfl rfl
  | retried last b head retries time _ => exact h.keep rfl rfl rfl rfl rfl rfl rfl rfl rfl
  | opened last b head =>
    show Tracks r _ (given ++ []) _
    rw [List.append_nil]
    exact h.opened rfl rfl rfl
  | ended last b _ => exact h.stay rfl rfl rfl rfl rfl rfl rfl rfl
  | unplaced last b log _ hp =>
    refine h.arrive rfl rfl rfl ?_ ?_
    · have hpassed : isPassedOver (admitted (arrivals hs)) log = false := by
        rw [isPassedOver, hp]
        rfl
      rw [admitted_concat, hpassed, h.admits]
      rfl
    · exact h.last.trans (lastPosition_unplaced hp).symm
  | skipped last b log p _ hp hpassed =>
    refine h.arrive rfl rfl rfl ?_ ?_
    · have hlast : last = lastPosition given := h.last
      rw [admitted_concat, ← h.admits, isPassedOver_of_position hp, ← hlast, hpassed]
      exact List.append_nil _
    · exact h.last.trans (congrArg lastPosition (List.append_nil given).symm)
  | taken last b log p _ hp hpassed =>
    refine h.arrive rfl rfl rfl ?_ ?_
    · have hlast : last = lastPosition given := h.last
      rw [admitted_concat, ← h.admits, isPassedOver_of_position hp, ← hlast, hpassed]
      rfl
    · exact (lastPosition_concat hp).symm
  | handed last b log => exact h.stay rfl rfl rfl rfl rfl rfl rfl rfl
  | left last b result => exact h.leave rfl rfl rfl rfl rfl rfl
  | cancelled f _ _ => exact h.leave rfl rfl rfl rfl rfl rfl

end Tracks

/-- Whether a subscription with a filter was, or may have been, asked for. -/
def Asks (c : Cause) (filter : LogFilter) : Prop :=
  ∃ side, c.question? = some (side, .subscribe filter)

namespace Following

variable {r : Relay} {hs before after : List Happening} {x : Happening} {handed : List Log}
  {f : Following} {filter : LogFilter}

/-- Every run is tracked. -/
theorem Run.tracks (h : Run r hs handed f) : Tracks r hs (handed ++ f.handsOn r) f := by
  induction h with
  | start =>
    refine ⟨rfl, rfl, fun _ => ⟨rfl, fun _ => ?_⟩, Bool.noConfusion⟩
    show r.fromBlock = _
    exact Option.or_none.symm
  | turn _ goes ih => exact ih.turned (goes_iff_turned.mp goes)

/-- Each happening of a run is a turn of the relay after what happened before. -/
theorem Run.split (h : Run r hs handed f) (hhs : hs = before ++ x :: after) :
    ∃ given g g', Tracks r before given g ∧ Turned r x.moment g x.cause g' := by
  induction h generalizing after with
  | start =>
    have hlen := congrArg List.length hhs
    simp at hlen
  | turn hbefore goes ih =>
    rcases List.eq_nil_or_concat after with rfl | ⟨front, y, rfl⟩
    · obtain ⟨rfl, heq⟩ := List.append_inj' hhs rfl
      obtain rfl := List.singleton_inj.mp heq
      exact ⟨_, _, _, hbefore.tracks, goes_iff_turned.mp goes⟩
    · rw [List.concat_eq_append, ← List.cons_append, ← List.append_assoc] at hhs
      exact ih (List.append_inj' hhs rfl).1

/-- A subscription is asked for at an opening only, from the block that the relay keeps. -/
theorem Turned.asks {m : Instant} {c : Cause} {f' : Following} (ht : Turned r m f c f')
    (h : Asks c filter) : f.phase.isOpening = true ∧ filter = r.filter f.fromBlock := by
  obtain ⟨side, hq⟩ := h
  cases ht with
  | subscribed | refused | givenUp =>
    cases hq
    exact ⟨rfl, rfl⟩
  | cancelled f _ hf =>
    obtain ⟨last, b, phase⟩ := f
    cases phase with
    | opening =>
      cases hq
      exact ⟨rfl, rfl⟩
    | _ => cases hq
  | _ => cases hq

/-- Every subscription asks from the block that the run before it has come to. -/
theorem Run.asks (h : Run r hs handed f) (hhs : hs = before ++ x :: after)
    (ha : Asks x.cause filter) : filter = r.filter (startBlock r before) := by
  obtain ⟨given, g, g', htracks, ht⟩ := h.split hhs
  obtain ⟨hopening, hfilter⟩ := ht.asks ha
  rw [hfilter, (htracks.opening hopening).1]

/-- **No position is handed on twice, whatever the node sends.** The logs handed on, together with
the one that the relay is about to hand on, are those admitted of the logs that arrived, and their
positions go forward only. Every subscription is asked for from the start block; once a log with a
position was handed on, that is the block of the last one, and it never goes back. -/
theorem handed_on_once (h : Run r hs handed f) :
    handed ++ f.handsOn r = admitted (arrivals hs) ∧
      ((handed ++ f.handsOn r).filterMap Log.position?).Pairwise Precedes ∧
      (∀ before x after filter, hs = before ++ x :: after → Asks x.cause filter →
        filter = r.filter (startBlock r before)) ∧
      ∀ before x between y after filter filter' p,
        hs = before ++ x :: (between ++ y :: after) → Asks x.cause filter → Asks y.cause filter' →
        lastPosition (admitted (arrivals before)) = some p →
        filter.fromBlock = some p.1 ∧
          ∃ q, lastPosition (admitted (arrivals (before ++ x :: between))) = some q ∧
            filter'.fromBlock = some q.1 ∧ p.1 ≤ q.1 := by
  have hall : handed ++ f.handsOn r = admitted (arrivals hs) := h.tracks.admits
  refine ⟨hall, hall ▸ ascending_admitted _, fun before x after filter hhs => h.asks hhs, ?_⟩
  intro before x between y after filter filter' p hhs hx hy hp
  have hhs' : hs = (before ++ x :: between) ++ y :: after := by simp [hhs]
  obtain ⟨q, hq, hpq⟩ : ∃ q, lastPosition (admitted (arrivals (before ++ x :: between))) = some q ∧
      rank p ≤ rank q := by
    rw [arrivals, List.filterMap_append]
    exact lastPosition_le _ hp
  refine ⟨?_, q, hq, ?_, block_le_of_rank_le hpq⟩
  · rw [h.asks hhs hx, startBlock, hp]
    rfl
  · rw [h.asks hhs' hy, startBlock, hq]
    rfl

/-- A log that stands nowhere. -/
def unplacedLog : Log := ⟨.zero, [], [], none, none, none⟩

/-- The node sends an older log, one twice and one without a position, and ends the subscription:
the older one and the repetition are passed over, and the next subscription begins with block 7. -/
theorem handed_on_once_of_disorder :
    ∃ hs x,
      Run observer (hs ++ [x]) [logAt (7, 1), unplacedLog] ⟨some (7, 1), some 7, .opened none⟩ ∧
      arrivals (hs ++ [x]) = [logAt (7, 1), logAt (6, 9), unplacedLog, logAt (7, 1)] ∧
      admitted (arrivals (hs ++ [x])) = [logAt (7, 1), unplacedLog] ∧
      Asks x.cause (observer.filter (some 7)) ∧
      observer.filter (some 7) = observer.filter (startBlock observer hs) := by
  have h₀ : Run observer _ _ _ := .start
  have h := h₀
    |>.turned (.started _ rfl)
    |>.turned (.subscribed _ _ _ _)
    |>.turned (.opened _ _ _)
    |>.turned (.taken _ _ (logAt (7, 1)) (7, 1) rfl rfl rfl)
    |>.turned (.handed _ _ _)
    |>.turned (.skipped _ _ (logAt (6, 9)) (6, 9) rfl rfl rfl)
    |>.turned (.unplaced _ _ unplacedLog rfl rfl)
    |>.turned (.handed _ _ _)
    |>.turned (.skipped _ _ (logAt (7, 1)) (7, 1) rfl rfl rfl)
    |>.turned (.ended _ _ rfl)
    |>.turned (.resumed _ _ _ rfl)
    |>.turned (.subscribed _ _ _ _)
  obtain ⟨hall, -, hasks, -⟩ := handed_on_once h
  have ha : Asks (.answered .pub (.subscribe (observer.filter (some 7))) (.ok ()))
      (observer.filter (some 7)) := ⟨_, rfl⟩
  exact ⟨_, _, h, rfl, hall.symm, ha, hasks _ _ [] _ rfl ha⟩

/-- Where nothing was handed on yet and no block is configured, the opening at which the newest
block is read for the first time asks for a subscription without a first block all the same. -/
theorem first_from_newest :
    ∃ before x f, Run idle (before ++ [x]) [] f ∧ idle.fromBlock = none ∧ arrivals before = [] ∧
      firstHead before = some 7 ∧ Asks x.cause (idle.filter none) ∧
      idle.filter none ≠ idle.filter (some 7) := by
  have h₀ : Run idle _ _ _ := .start
  have h := h₀
    |>.turned (.unstarted rfl)
    |>.turned (.headed _ _ 7)
    |>.turned (.subscribed _ _ _ _)
  exact ⟨_, _, _, h, rfl, rfl, rfl, ⟨_, rfl⟩, nofun⟩

end Following

end EventRelay.Relay
