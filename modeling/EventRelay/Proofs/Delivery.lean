import EventRelay.Proofs.Attempt
import EventRelay.Proofs.Resumption

/-!
# Nothing is lost and nothing is doubled

However often a subscription ends, and wherever it does, the logs that a relay hands on are a
stretch of the chain without gap or repetition. `Run.resumed` is that for a relay with a first
block. Without one the relay begins with the newest block: `Fresh` is what is so up to the end of
its first subscription, and from then on too.

Main statement:

* `Following.handed_on_exactly`: with a first block configured, the logs handed on are a beginning
  of the chain from that block on; without one they are a stretch of the chain that begins with what
  the first subscription sent, or else at the head that was read before it.
-/

namespace EventRelay.Relay

/-- A subscription sent what it may send, without the last log. -/
theorem Reception.Faithful.init {chain : List Log} {start : Option UInt64} {sent : List Log}
    {l : Log} (h : Reception.Faithful chain ⟨start, sent ++ [l]⟩) :
    Reception.Faithful chain ⟨start, sent⟩ := by
  cases start with
  | none => exact (List.prefix_append sent [l]).isInfix.trans h
  | some b => exact Serves.init h

/-- If all subscriptions sent what they may send, they did so before. -/
theorem Reception.faithful_of_hear {chain : List Log} {rs : List Reception} {c : Cause}
    (h : ∀ s ∈ Reception.hear rs c, s.Faithful chain) : ∀ s ∈ rs, s.Faithful chain := by
  revert h
  unfold Reception.hear
  split
  next filter _ => exact fun h s hs => h s (List.mem_cons_of_mem _ hs)
  next log =>
    cases rs with
    | nil => exact fun _ s hs => absurd hs List.not_mem_nil
    | cons s rest =>
      intro h s' hs'
      rcases List.mem_cons.mp hs' with rfl | hs'
      · exact (h _ List.mem_cons_self).init
      · exact h s' (List.mem_cons_of_mem _ hs')
  next => exact fun h => h

/-- A node that is faithful sends logs of the chain only. -/
theorem Reception.Faithful.mem {chain : List Log} {s : Reception} {l : Log}
    (h : s.Faithful chain) (hl : l ∈ s.sent) : l ∈ chain := by
  obtain ⟨_ | b, sent⟩ := s
  · exact List.IsInfix.subset h hl
  · exact (List.mem_filter.mp (Serves.mem h hl)).1

/-- The logs given were received, stand in the order of the chain, each once, and reach up to the
last log of the chain that was received. -/
structure GivenUpTo (rs : List Reception) (given : List Log) : Prop where
  received : ∀ x ∈ given, Received rs x
  ordered : given.Pairwise Log.Before
  reaching : ∀ l, Received rs l → ∃ x ∈ given, ¬ x.Before l

/-- A relay that goes on from a block has given what was received up to the last log of it. -/
theorem Resumed.givenUpTo {chain first given : List Log} {b : UInt64} {rs : List Reception}
    {f : Following} (hc : ChainOrdered chain) (h : Resumed chain b first rs given f)
    (hserved : ∀ s ∈ rs, s.Faithful chain) : GivenUpTo rs given := by
  refine ⟨h.received, hc.increasing.sublist h.stretch.sublist, ?_⟩
  intro l h
  obtain ⟨s, hs, hl⟩ := h
  obtain ⟨p, hp⟩ := hc.placed l ((hserved s hs).mem hl)
  have hany := h.behind l ⟨s, hs, hl⟩ p hp
  obtain ⟨q, hq, hle⟩ := (Option.any_eq_true _ _).mp hany
  obtain ⟨y, hy, hyq⟩ := Option.bind_eq_some_iff.mp (h.last.symm.trans hq)
  refine ⟨y, List.mem_of_getLast? hy, ?_⟩
  rw [Log.before_iff hyq hp]
  exact Nat.not_lt.mpr (atOrBefore_iff.mp hle)

/-- Whether the relay may be in the phase before its first subscription, when the newest block has
been `head`. -/
def Phase.Begins (head : UInt64) : Phase → Prop
  | .opening h _ | .retrying h _ | .pausing h _ _ => h = some head
  | .leaving _ | .done _ => True
  | _ => False

/-- Whether the relay may be in the phase while it has its first subscription, or after it was told
to stop. -/
def Phase.Listens : Phase → Prop
  | .listening | .handing _ | .leaving _ | .done _ => True
  | _ => False

/-- What is so for a relay without a first block once the newest block was found to be `head`: it
is about to subscribe, it has its first subscription, or it goes on from a block. -/
inductive Fresh (chain : List Log) (head : UInt64) :
    List Reception → List Log → Following → Prop
  | beginning {phase : Phase} (hp : phase.Begins head) : Fresh chain head [] [] ⟨none, none, phase⟩
  | opened : Fresh chain head [⟨none, []⟩] [] ⟨none, none, .opened (some head)⟩
  | listening {given : List Log} {last : Option (UInt64 × UInt64)} {phase : Phase}
      (hs : given <:+: chain) (hlast : last = given.getLast?.bind Log.position?)
      (hp : phase.Listens) : Fresh chain head [⟨none, given⟩] given ⟨last, some head, phase⟩
  | resumed {first given : List Log} {rs : List Reception} {f : Following}
      (hfirst : rs.getLast? = some ⟨none, first⟩) (h : Resumed chain head first rs given f) :
      Fresh chain head rs given f

namespace Fresh

variable {chain given : List Log} {head : UInt64} {rs : List Reception} {r : Relay}

theorem quiet {f : Following} (h : Fresh chain head rs given f) (hf : f.handsOn r = []) :
    Fresh chain head rs (given ++ f.handsOn r) f := by
  rw [hf, List.append_nil]
  exact h

/-- When the first subscription ends the relay goes on from a block. -/
theorem ended (hc : ChainOrdered chain) (hs : given <:+: chain) :
    Resumed chain head given [⟨none, given⟩] given
      ⟨given.getLast?.bind Log.position?, some head, .turning⟩ := by
  refine ⟨hs, List.prefix_rfl, fun hnil => hnil ▸ List.nil_prefix, rfl,
    ⟨head, rfl, fun _ => rfl, Bool.noConfusion⟩, ?_, fun x hx => ⟨_, List.mem_cons_self, hx⟩,
    Bool.noConfusion⟩
  intro l h p hp
  obtain ⟨s, hmem, hl⟩ := h
  obtain rfl := List.mem_singleton.mp hmem
  -- the last log that was sent stands after all others
  obtain ⟨y, hy⟩ := List.getLast?_isSome.mpr (List.ne_nil_of_mem hl) |> Option.isSome_iff_exists.mp
  obtain ⟨q, hq⟩ := hc.placed y (hs.subset (List.mem_of_getLast? hy))
  have hle := hc.not_after_last hs hy hl
  rw [Log.before_iff hq hp] at hle
  show (given.getLast?.bind Log.position?).any (atOrBefore p) = true
  rw [hy, Option.bind_some, hq, Option.any_some, atOrBefore_iff]
  exact Nat.le_of_not_lt hle

/-- While the relay goes on from a block, what its first subscription sent is settled. -/
theorem first_hear {first : List Log} {m : Instant} {f f' : Following} {c : Cause}
    (hfirst : rs.getLast? = some ⟨none, first⟩) (h : Resumed chain head first rs given f)
    (ht : Following.Turned r m f c f') :
    (Reception.hear rs c).getLast? = some ⟨none, first⟩ := by
  have hgrow : ∀ (s : Reception) {rest : List Reception}, rest.getLast? = some ⟨none, first⟩ →
      (s :: rest).getLast? = some ⟨none, first⟩ := by
    intro s rest hrest
    rw [List.getLast?_cons, hrest, Option.getD_some]
  unfold Reception.hear
  split
  next filter _ => exact hgrow _ hfirst
  next log =>
    -- The subscription that is open is another one, for it was opened with a block.
    have hphase : f.phase = .listening := by cases ht <;> rfl
    obtain ⟨b, hb, -⟩ := h.block
    obtain ⟨sent, rest, rfl⟩ := h.current (by rw [hphase]; rfl)
    cases rest with
    | nil =>
      rw [hb] at hfirst
      cases hfirst
    | cons s rest =>
      rw [List.getLast?_cons_cons] at hfirst
      exact hgrow _ hfirst
  next => exact hfirst

/-- A log that the first subscription sends stands after those that it sent before, and the relay
takes it. -/
theorem take (hc : ChainOrdered chain) {l : Log} {p : UInt64 × UInt64}
    (hs : given ++ [l] <:+: chain) (hp : l.position? = some p) :
    (given.getLast?.bind Log.position?).any (atOrBefore p) = false := by
  cases hy : given.getLast? with
  | none => rfl
  | some y =>
    have hsorted := hc.increasing.sublist hs.sublist
    have hlt : y.Before l := (List.pairwise_append.mp hsorted).2.2 y (List.mem_of_getLast? hy) l
      (List.mem_singleton_self l)
    obtain ⟨q, hq⟩ := hc.placed y (hs.subset (List.mem_append_left _ (List.mem_of_getLast? hy)))
    rw [Log.before_iff hq hp] at hlt
    rw [Option.bind_some, hq, Option.any_some, Bool.eq_false_iff]
    exact fun hle => absurd (atOrBefore_iff.mp hle) (by omega)

/-- **Every turn keeps the invariant**, and what the relay will hand on next is counted as given. -/
theorem turned {m : Instant} {f f' : Following} {c : Cause} (hc : ChainOrdered chain)
    (h : Fresh chain head rs given f) (ht : Following.Turned r m f c f')
    (hserved : ∀ s ∈ Reception.hear rs c, s.Faithful chain) :
    Fresh chain head (Reception.hear rs c) (given ++ f'.handsOn r) f' := by
  cases h with
  | beginning hp =>
    cases ht with
    | subscribed last b h retries =>
      obtain rfl : h = some head := hp
      exact .opened
    | refused last b h retries e _ => exact .beginning hp
    | givenUp last b h retries e _ => exact .beginning trivial
    | backedOff last b h retries _ => exact .beginning hp
    | retried last b h retries time _ => exact .beginning hp
    | left last b result => exact .beginning trivial
    | cancelled f _ _ => exact .beginning trivial
    | _ => exact hp.elim
  | opened =>
    cases ht with
    | opened last b h => exact .listening List.nil_infix rfl trivial
    | cancelled f _ hf => cases hf
  | listening hs hlast hphase =>
    cases ht with
    | ended last b _ => exact quiet (.resumed rfl (hlast ▸ ended hc hs)) rfl
    | unplaced last b log _ hnone =>
      -- each log of the chain stands somewhere
      have hs' : given ++ [log] <:+: chain := hserved _ List.mem_cons_self
      obtain ⟨p, hp⟩ := hc.placed log (hs'.subset (List.mem_append_right _ List.mem_cons_self))
      cases hnone.symm.trans hp
    | skipped last b log p _ hp hle =>
      -- nothing is repeated within one stretch of the chain
      have hs' : given ++ [log] <:+: chain := hserved _ List.mem_cons_self
      rw [hlast, take hc hs' hp] at hle
      cases hle
    | taken last b log p _ hp _ =>
      have hs' : given ++ [log] <:+: chain := hserved _ List.mem_cons_self
      exact .listening hs' (by rw [List.getLast?_concat, Option.bind_some, hp]) trivial
    | handed last b log => exact quiet (.listening hs hlast trivial) rfl
    | left last b result => exact quiet (.listening hs hlast trivial) rfl
    | cancelled f _ _ => exact quiet (.listening hs hlast trivial) rfl
    | _ => exact hphase.elim
  | resumed hfirst h => exact .resumed (first_hear hfirst h ht) (h.turned hc ht hserved)

/-- What is given while the relay goes on from the newest block. -/
theorem stretch {f : Following} (h : Fresh chain head rs given f) : given <:+: chain := by
  cases h with
  | beginning _ => exact List.nil_infix
  | opened => exact List.nil_infix
  | listening hs _ _ => exact hs
  | resumed _ h => exact h.stretch

/-- What is given begins with what the first subscription sent, or else at the newest block. -/
theorem rooted {f : Following} {s : Reception} (h : Fresh chain head rs given f)
    (hs : rs.getLast? = some s) :
    s.start = none ∧ s.sent <+: given ∧ (s.sent = [] → given <+: since head chain) := by
  cases h with
  | beginning _ => cases hs
  | opened =>
    obtain rfl := Option.some.inj hs
    exact ⟨rfl, List.nil_prefix, fun _ => List.nil_prefix⟩
  | listening _ _ _ =>
    obtain rfl := Option.some.inj hs
    exact ⟨rfl, List.prefix_rfl, fun hnil => (show given = [] from hnil) ▸ List.nil_prefix⟩
  | resumed hfirst h =>
    obtain rfl := Option.some.inj (hfirst.symm.trans hs)
    exact ⟨rfl, h.rooted, h.origin⟩

/-- What was handed on reaches up to the last log that was received. -/
theorem givenUpTo {f : Following} (hc : ChainOrdered chain) (h : Fresh chain head rs given f)
    (hserved : ∀ s ∈ rs, s.Faithful chain) : GivenUpTo rs given := by
  have hordered := hc.increasing.sublist h.stretch.sublist
  cases h with
  | beginning _ =>
    refine ⟨fun x hx => absurd hx List.not_mem_nil, hordered, ?_⟩
    intro l h
    obtain ⟨s, hs, -⟩ := h
    cases hs
  | opened =>
    refine ⟨fun x hx => absurd hx List.not_mem_nil, hordered, ?_⟩
    intro l h
    obtain ⟨s, hs, hl⟩ := h
    obtain rfl := List.mem_singleton.mp hs
    cases hl
  | listening _ _ _ =>
    refine ⟨fun x hx => ⟨_, List.mem_cons_self, hx⟩, hordered, ?_⟩
    intro l h
    obtain ⟨s, hs, hl⟩ := h
    obtain rfl := List.mem_singleton.mp hs
    exact ⟨l, hl, l.not_before_self⟩
  | resumed _ h => exact h.givenUpTo hc hserved

end Fresh

/-- Whether a relay without a first block may be in the phase before it knows the newest block. -/
def Phase.Asks : Phase → Prop
  | .turning | .heading | .leaving _ | .done _ => True
  | _ => False

/-- What is so for a relay without a first block, by what it was answered about the newest block.
Nothing is said if the first answer was an error. -/
inductive Begun (chain : List Log) :
    List (Except ChainError UInt64) → List Reception → List Log → Following → Prop
  | unread {phase : Phase} (hp : phase.Asks) : Begun chain [] [] [] ⟨none, none, phase⟩
  | unknown {e : ChainError} {heads : List (Except ChainError UInt64)} {rs : List Reception}
      {given : List Log} {f : Following} : Begun chain (.error e :: heads) rs given f
  | fresh {head : UInt64} {heads : List (Except ChainError UInt64)} {rs : List Reception}
      {given : List Log} {f : Following} (h : Fresh chain head rs given f) :
      Begun chain (.ok head :: heads) rs given f

/-- `Begun` is kept by every turn. -/
theorem Begun.turned {r : Relay} {chain given : List Log} {heads : List (Except ChainError UInt64)}
    {rs : List Reception} {m : Instant} {f f' : Following} {c : Cause} (hc : ChainOrdered chain)
    (h : Begun chain heads rs given f) (ht : Following.Turned r m f c f')
    (hserved : ∀ s ∈ Reception.hear rs c, s.Faithful chain) :
    Begun chain (heads ++ (newest? c).toList) (Reception.hear rs c) (given ++ f'.handsOn r) f' := by
  cases h with
  | unread hp =>
    cases ht with
    | stopped last b _ => exact .unread trivial
    | unstarted _ => exact .unread trivial
    | headed last b head => exact .fresh (.beginning rfl)
    | unheaded last b e => exact .unknown
    | left last b result => exact .unread trivial
    | cancelled f _ _ => exact .unread trivial
    | _ => exact hp.elim
  | unknown => exact .unknown
  | fresh h => exact .fresh (h.turned hc ht hserved)

namespace Following

variable {r : Relay} {chain handed : List Log} {hs : List Happening} {f : Following}

/-- With a first block configured the relay knows at any time where to go on from. -/
theorem Run.resumed {b : UInt64} (hc : ChainOrdered chain) (hb : r.fromBlock = some b)
    (h : Run r hs handed f) (hserved : ∀ s ∈ receptions hs, s.Faithful chain) :
    Resumed chain b [] (receptions hs) (handed ++ f.handsOn r) f := by
  induction h with
  | start =>
    -- Nothing is given yet, and the block to go on from is the configured one.
    refine ⟨List.nil_infix, List.nil_prefix, fun _ => List.nil_prefix, rfl,
      ⟨b, hb, fun _ => rfl, Bool.noConfusion⟩, ?_, ?_, Bool.noConfusion⟩
    · intro l h
      obtain ⟨s, hs, -⟩ := h
      cases hs
    · exact fun x hx => absurd hx List.not_mem_nil
  | turn _ goes ih =>
    rw [receptions_concat] at hserved ⊢
    exact (ih (Reception.faithful_of_hear hserved)).turned hc (goes_iff_turned.mp goes) hserved

/-- Without a first block the relay begins with the newest one. -/
theorem Run.begun (hc : ChainOrdered chain) (hb : r.fromBlock = none) (h : Run r hs handed f)
    (hserved : ∀ s ∈ receptions hs, s.Faithful chain) :
    Begun chain (heads hs) (receptions hs) (handed ++ f.handsOn r) f := by
  induction h with
  | start =>
    show Begun chain [] [] [] ⟨none, r.fromBlock, .turning⟩
    rw [hb]
    exact .unread trivial
  | turn _ goes ih =>
    rw [receptions_concat] at hserved ⊢
    rw [heads_concat]
    exact (ih (Reception.faithful_of_hear hserved)).turned hc (goes_iff_turned.mp goes) hserved

/-- **No log is lost and none is doubled over any number of subscriptions.** Let each subscription
send what it may send, and let it end anywhere. The logs handed on, together with the one that the
relay is about to hand on, are with a first block the beginning of the chain from that block on, up
to the last log that was received. Without one, if the newest block was read before the first
subscription, they are a stretch of the chain that begins with what that subscription sent, or at
that block if it sent nothing. -/
theorem handed_on_exactly (hc : ChainOrdered chain) (h : Run r hs handed f)
    (hserved : ∀ s ∈ receptions hs, s.Faithful chain) :
    (∀ b, r.fromBlock = some b →
      handed ++ f.handsOn r <+: since b chain ∧
        GivenUpTo (receptions hs) (handed ++ f.handsOn r)) ∧
    ∀ head, r.fromBlock = none → (heads hs).head? = some (.ok head) →
      handed ++ f.handsOn r <:+: chain ∧ GivenUpTo (receptions hs) (handed ++ f.handsOn r) ∧
        ∀ s, (receptions hs).getLast? = some s → s.start = none ∧
          s.sent <+: handed ++ f.handsOn r ∧
          (s.sent = [] → handed ++ f.handsOn r <+: since head chain) := by
  constructor
  · intro b hb
    have hresumed := h.resumed hc hb hserved
    exact ⟨hresumed.origin rfl, hresumed.givenUpTo hc hserved⟩
  · intro head hb hhead
    have hbegun := h.begun hc hb hserved
    obtain ⟨rest, hheads⟩ := List.head?_eq_some_iff.mp hhead
    rw [hheads] at hbegun
    cases hbegun with
    | fresh hfresh => exact ⟨hfresh.stretch, hfresh.givenUpTo hc hserved, fun s => hfresh.rooted⟩

/-- A relay without rules that begins with block 5. -/
def observer : Relay := { idle with fromBlock := some 5 }

/-- A log of the contract of `observer`, by its position. -/
def logAt (p : UInt64 × UInt64) : Log := ⟨.zero, [], [], some p.1, some p.2, none⟩

/-- Logs at ascending positions are in the order of the chain. -/
theorem chainOrdered_logAt {ps : List (UInt64 × UInt64)} (h : ps.Pairwise Precedes) :
    ChainOrdered (ps.map logAt) where
  placed l hl := by
    obtain ⟨p, -, rfl⟩ := List.mem_map.mp hl
    exact ⟨p, rfl⟩
  increasing := List.pairwise_map.mpr (h.imp fun hpq => ⟨_, _, rfl, rfl, hpq⟩)

theorem Run.turned {f' : Following} {c : Cause} (before : Run r hs handed f)
    (turned : Turned r .zero f c f') :
    Run r (hs ++ [⟨.zero, c⟩]) (handed ++ f.handsOn r) f' :=
  before.turn turned.goes

/-- The first subscription ends in the middle of block 7 and the second one repeats what came of
that block: the relay hands on each of the three logs once. -/
theorem handed_on_after_drop :
    ∃ hs, Run observer hs ([(5, 0), (7, 0), (7, 1)].map logAt) ⟨some (7, 1), some 7, .listening⟩ ∧
      (receptions hs).map (·.sent) = [[(7, 0), (7, 1)].map logAt, [(5, 0), (7, 0)].map logAt] ∧
      ChainOrdered ([(3, 0), (5, 0), (7, 0), (7, 1)].map logAt) ∧
      (∀ s ∈ receptions hs, s.Faithful ([(3, 0), (5, 0), (7, 0), (7, 1)].map logAt)) ∧
      [(5, 0), (7, 0), (7, 1)].map logAt <+:
        since 5 ([(3, 0), (5, 0), (7, 0), (7, 1)].map logAt) := by
  have h₀ : Run observer _ _ _ := .start
  have h := h₀
    |>.turned (.started _ rfl)
    |>.turned (.subscribed _ _ _ _)
    |>.turned (.opened _ _ _)
    |>.turned (.taken _ _ (logAt (5, 0)) (5, 0) rfl rfl rfl)
    |>.turned (.handed _ _ _)
    |>.turned (.taken _ _ (logAt (7, 0)) (7, 0) rfl rfl rfl)
    |>.turned (.handed _ _ _)
    |>.turned (.ended _ _ rfl)
    |>.turned (.resumed _ _ _ rfl)
    |>.turned (.subscribed _ _ _ _)
    |>.turned (.opened _ _ _)
    |>.turned (.skipped _ _ (logAt (7, 0)) (7, 0) rfl rfl rfl)
    |>.turned (.taken _ _ (logAt (7, 1)) (7, 1) rfl rfl rfl)
    |>.turned (.handed _ _ _)
  have hc : ChainOrdered ([(3, 0), (5, 0), (7, 0), (7, 1)].map logAt) :=
    chainOrdered_logAt (by decide)
  have hserved : ∀ s ∈ [⟨some 7, [(7, 0), (7, 1)].map logAt⟩, ⟨some 5, [(5, 0), (7, 0)].map logAt⟩],
      Reception.Faithful ([(3, 0), (5, 0), (7, 0), (7, 1)].map logAt) s := by
    intro s hs
    simp only [List.mem_cons, List.not_mem_nil, or_false] at hs
    rcases hs with rfl | rfl
    · exact Serves.of_isPrefix (by decide)
    · exact Serves.of_isPrefix (by decide)
  exact ⟨_, h, rfl, hc, hserved, ((handed_on_exactly hc h hserved).1 5 rfl).1⟩

end Following

end EventRelay.Relay
