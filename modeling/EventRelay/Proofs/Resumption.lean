import EventRelay.Proofs.ChainOrder
import EventRelay.Proofs.Following

/-!
# Going on after a subscription has ended

A relay subscribes again whenever a subscription ends, from the block of the last log that it handed
on. The new subscription repeats that block, and the relay passes over what it has handed on before.
`Resumed` is what is so once the relay knows a block to go on from, if each subscription sends what
it `Serves`: the logs given so far, which are those handed on and the one about to be, are a stretch
of the chain, and all that was received stands at or before the last of them.

Main statements:

* `Resumed.take`: a log that is taken is the next one of the chain;
* `Resumed.turned`: every turn of the relay keeps the invariant.
-/

namespace EventRelay.Relay

/-- Whether the relay has or is about to have a subscription. -/
def Phase.isLive : Phase → Bool
  | .turning | .leaving _ | .done _ => false
  | _ => true

/-- Whether the relay has a subscription. -/
def Phase.isOpen : Phase → Bool
  | .opened _ | .listening | .handing _ => true
  | _ => false

/-- A subscription sent what it serves; one that was to begin with the newest block sent a stretch
of the chain. -/
def Reception.Faithful (chain : List Log) (s : Reception) : Prop :=
  match s.start with
  | some b => Serves chain b s.sent
  | none => s.sent <:+: chain

/-- What is so while the relay goes on from a block. `b₀` is the block at which the logs given
begin, unless they begin with `first`; `rs` is what was received so far. -/
structure Resumed (chain : List Log) (b₀ : UInt64) (first : List Log) (rs : List Reception)
    (given : List Log) (f : Following) : Prop where
  stretch : given <:+: chain
  rooted : first <+: given
  origin : first = [] → given <+: since b₀ chain
  /-- The last position is that of the last log given. -/
  last : f.last = given.getLast?.bind Log.position?
  /-- The block to go on from is no later than that of the last log given. -/
  block : ∃ b, f.fromBlock = some b ∧ (given = [] → b = b₀) ∧
    (f.phase.isLive = true → ∀ p ∈ f.last, b ≤ p.1)
  /-- All that was received stands at or before the last position. -/
  behind : ∀ l, Received rs l → ∀ p ∈ l.position?, f.last.any (atOrBefore p) = true
  received : ∀ x ∈ given, Received rs x
  current : f.phase.isOpen = true → ∃ sent rest, rs = ⟨f.fromBlock, sent⟩ :: rest

namespace Resumed

variable {chain first given : List Log} {b₀ : UInt64} {rs : List Reception}
  {last : Option (UInt64 × UInt64)} {b : Option UInt64} {phase phase' : Phase}

theorem quiet {r : Relay} {f : Following} (h : Resumed chain b₀ first rs given f)
    (hf : f.handsOn r = []) : Resumed chain b₀ first rs (given ++ f.handsOn r) f := by
  rw [hf, List.append_nil]
  exact h

/-- Another phase with the same subscription, in which there is nothing to hand on. -/
theorem enter {r : Relay} (h : Resumed chain b₀ first rs given ⟨last, b, phase⟩)
    (hlive : phase'.isLive = true → phase.isLive = true)
    (hopen : phase'.isOpen = true → phase.isOpen = true)
    (hf : Following.handsOn r ⟨last, b, phase'⟩ = []) :
    Resumed chain b₀ first rs (given ++ Following.handsOn r ⟨last, b, phase'⟩)
      ⟨last, b, phase'⟩ := by
  obtain ⟨b', hb, hroot, hle⟩ := h.block
  exact quiet ⟨h.stretch, h.rooted, h.origin, h.last, ⟨b', hb, hroot, fun hl => hle (hlive hl)⟩,
    h.behind, h.received, fun ho => h.current (hopen ho)⟩ hf

/-- The last log given stands at the last position. -/
theorem last_position (h : Resumed chain b₀ first rs given ⟨last, b, phase⟩)
    (hc : ChainOrdered chain) {y : Log} (hy : given.getLast? = some y) :
    ∃ p, y.position? = some p ∧ last = some p := by
  obtain ⟨p, hp⟩ := hc.placed y (h.stretch.subset (List.mem_of_getLast? hy))
  refine ⟨p, hp, ?_⟩
  have hlast : last = given.getLast?.bind Log.position? := h.last
  rw [hlast, hy, Option.bind_some, hp]

/-- A log that was received and passed over changes nothing. -/
theorem skip (h : Resumed chain b₀ first rs given ⟨last, b, .listening⟩) {l : Log}
    {p : UInt64 × UInt64} (hp : l.position? = some p) (hlast : last.any (atOrBefore p) = true) :
    Resumed chain b₀ first (Reception.hear rs (.received .pub (some l))) given
      ⟨last, b, .listening⟩ := by
  obtain ⟨sent, rest, rfl⟩ := h.current rfl
  refine ⟨h.stretch, h.rooted, h.origin, h.last, h.block, ?_, ?_, fun _ => ⟨_, _, rfl⟩⟩
  · intro l' hl' p' hp'
    rcases received_hear.mp hl' with hl' | rfl
    · exact h.behind l' hl' p' hp'
    · obtain rfl := Option.some.inj (hp.symm.trans hp')
      exact hlast
  · exact fun x hx => received_hear.mpr (.inl (h.received x hx))

/-- What stands before a log that is received, in the blocks of the subscription, stands at or
before the last position. -/
theorem passed {sent : List Log} {rest : List Reception} {b : UInt64} (hc : ChainOrdered chain)
    (h : Resumed chain b₀ first (⟨some b, sent⟩ :: rest) given ⟨last, some b, phase⟩) {l x : Log}
    {q : UInt64 × UInt64} (hserves : Serves chain b (sent ++ [l])) (hx : x ∈ chain)
    (hlt : x.Before l) (hq : x.position? = some q) (hb : b ≤ q.1) :
    last.any (atOrBefore q) = true :=
  h.behind x ⟨_, List.mem_cons_self, hserves.gapless hc hx ((Log.isSince_iff hq).mpr hb) hlt⟩ q hq

/-- Nothing of the chain stands between the last log given and the next one that is taken. -/
theorem adjacent {sent : List Log} {rest : List Reception} {b : UInt64} (hc : ChainOrdered chain)
    (h : Resumed chain b₀ first (⟨some b, sent⟩ :: rest) given ⟨last, some b, .listening⟩)
    {l x y : Log} (hserves : Serves chain b (sent ++ [l])) (hy : given.getLast? = some y)
    (hx : x ∈ chain) (hlt : x.Before l) : ¬ y.Before x := by
  obtain ⟨p, hp, rfl⟩ := h.last_position hc hy
  obtain ⟨q, hq⟩ := hc.placed x hx
  obtain ⟨b', hb', -, hle⟩ := h.block
  obtain rfl := Option.some.inj hb'
  rw [Log.before_iff hp hq]
  intro hpq
  -- `x` stands in a block of the subscription, so it was sent before `l` and passed over.
  have hb : b ≤ q.1 := UInt64.le_trans (hle rfl p rfl) (block_le_of_rank_le (Nat.le_of_lt hpq))
  have hqp := atOrBefore_iff.mp (h.passed hc hserves hx hlt hq hb)
  omega

/-- The logs given go on with a log that is taken. -/
theorem given_take {sent : List Log} {rest : List Reception} {b : UInt64} (hc : ChainOrdered chain)
    (h : Resumed chain b₀ first (⟨some b, sent⟩ :: rest) given ⟨last, some b, .listening⟩) {l : Log}
    {p : UInt64 × UInt64} (hserves : Serves chain b (sent ++ [l])) (hp : l.position? = some p)
    (hlast : last.any (atOrBefore p) = false) :
    given ++ [l] <:+: chain ∧ (first = [] → given ++ [l] <+: since b₀ chain) := by
  have hl : l ∈ since b chain := hserves.mem (List.mem_append_right _ (List.mem_singleton_self l))
  obtain ⟨hmem, hsince⟩ := List.mem_filter.mp hl
  rcases hy : given.getLast? with _ | y
  · -- nothing was given yet: `l` is the first log from block `b₀` on
    obtain rfl := List.getLast?_eq_none_iff.mp hy
    obtain ⟨b', hb', hroot, -⟩ := h.block
    obtain rfl := Option.some.inj hb'
    obtain rfl := hroot rfl
    have hnone : last = none := h.last
    refine ⟨?_, fun _ => ?_⟩
    · obtain ⟨before, after, rfl⟩ := List.append_of_mem hmem
      exact ⟨before, after, by simp⟩
    · refine (hc.since b).concat List.nil_prefix hl List.not_mem_nil ?_
      intro x hx hlt
      obtain ⟨hxc, hxb⟩ := List.mem_filter.mp hx
      obtain ⟨q, hq⟩ := hc.placed x hxc
      have := h.passed hc hserves hxc hlt hq ((Log.isSince_iff hq).mp hxb)
      rw [hnone] at this
      cases this
  · -- `l` stands after the last log given, and nothing stands between
    obtain ⟨q, hq, rfl⟩ := h.last_position hc hy
    have hlt : y.Before l := by
      rw [Log.before_iff hq hp]
      have : ¬ rank p ≤ rank q := fun hle => by
        rw [Option.any_some, atOrBefore_iff.mpr hle] at hlast
        cases hlast
      omega
    have hgap : ∀ x ∈ chain, x.Before l → ¬ y.Before x := fun x hx => h.adjacent hc hserves hy hx
    constructor
    · -- The stretch is the end of a beginning of the chain, and that beginning goes on.
      obtain ⟨before, after, hchain⟩ := h.stretch
      have hbegin : before ++ given ++ [l] <+: chain :=
        hc.concat_last ⟨after, hchain⟩ (by rw [List.getLast?_append, hy]; rfl) hmem hlt hgap
      rw [List.append_assoc] at hbegin
      exact (List.suffix_append _ _).isInfix.trans hbegin.isInfix
    · -- The same from block `b₀` on, where `l` stands as well, for it stands after `y`.
      intro hfirst
      have horigin := h.origin hfirst
      have hy₀ := (List.mem_filter.mp (horigin.subset (List.mem_of_getLast? hy))).2
      have hb₀ : b₀ ≤ p.1 := UInt64.le_trans ((Log.isSince_iff hq).mp hy₀)
        (block_le_of_rank_le (Nat.le_of_lt ((Log.before_iff hq hp).mp hlt)))
      exact (hc.since b₀).concat_last horigin hy
        (List.mem_filter.mpr ⟨hmem, (Log.isSince_iff hp).mpr hb₀⟩) hlt
        fun x hx => hgap x (List.mem_filter.mp hx).1

/-- **A log that is taken is the next one of the chain.** -/
theorem take (hc : ChainOrdered chain)
    (h : Resumed chain b₀ first rs given ⟨last, b, .listening⟩) {l : Log} {p : UInt64 × UInt64}
    (hserved : ∀ s ∈ Reception.hear rs (.received .pub (some l)), s.Faithful chain)
    (hp : l.position? = some p) (hlast : last.any (atOrBefore p) = false) :
    Resumed chain b₀ first (Reception.hear rs (.received .pub (some l))) (given ++ [l])
      ⟨some p, b, .handing l⟩ := by
  obtain ⟨sent, rest, rfl⟩ := h.current rfl
  obtain ⟨b, rfl, -, hle⟩ := h.block
  have hserves : Serves chain b (sent ++ [l]) := hserved _ List.mem_cons_self
  obtain ⟨hstretch, horigin⟩ := h.given_take hc hserves hp hlast
  -- What stands at or before the last position stands before `l`, which does not.
  have hahead : ∀ q, last.any (atOrBefore q) = true → atOrBefore q p = true := by
    intro q hq
    cases last with
    | none => cases hq
    | some o =>
      have hqo := atOrBefore_iff.mp hq
      have hop : ¬ rank p ≤ rank o := fun hle => by
        rw [Option.any_some, atOrBefore_iff.mpr hle] at hlast
        cases hlast
      exact atOrBefore_iff.mpr (by omega)
  have hb : b ≤ p.1 := by
    have hmem := hserves.mem (List.mem_append_right _ (List.mem_singleton_self l))
    exact (Log.isSince_iff hp).mp (List.mem_filter.mp hmem).2
  refine ⟨hstretch, h.rooted.trans (List.prefix_append _ _), horigin, ?_, ⟨b, rfl, ?_, ?_⟩, ?_, ?_,
    fun _ => ⟨_, _, rfl⟩⟩
  · rw [List.getLast?_concat, Option.bind_some, hp]
  · exact fun hnil => absurd hnil (by simp)
  · intro _ q hq
    obtain rfl := Option.some.inj hq
    exact hb
  · intro l' hl' q hq
    rcases received_hear.mp hl' with hl' | rfl
    · exact hahead q (h.behind l' hl' q hq)
    · obtain rfl := Option.some.inj (hp.symm.trans hq)
      exact atOrBefore_iff.mpr (Nat.le_refl _)
  · intro x hx
    rcases List.mem_append.mp hx with hx | hx
    · exact received_hear.mpr (.inl (h.received x hx))
    · exact received_hear.mpr (.inr (List.mem_singleton.mp hx))

/-- **Every turn keeps the invariant**, and what the relay will hand on next is counted as given. -/
theorem turned {r : Relay} {m : Instant} {f f' : Following} {c : Cause} (hc : ChainOrdered chain)
    (h : Resumed chain b₀ first rs given f) (ht : Following.Turned r m f c f')
    (hserved : ∀ s ∈ Reception.hear rs c, s.Faithful chain) :
    Resumed chain b₀ first (Reception.hear rs c) (given ++ f'.handsOn r) f' := by
  cases ht with
  | stopped last b _ => exact h.enter id id rfl
  | resumed block index b _ =>
    -- The block to go on from becomes that of the last position.
    refine quiet ⟨h.stretch, h.rooted, h.origin, h.last, ⟨block, rfl, ?_, ?_⟩, h.behind, h.received,
      Bool.noConfusion⟩ rfl
    · intro heq
      subst heq
      cases h.last
    · intro _ p hp
      obtain rfl := Option.some.inj hp
      exact UInt64.le_refl _
  | started b _ =>
    obtain ⟨b', hb, hroot, -⟩ := h.block
    refine quiet ⟨h.stretch, h.rooted, h.origin, h.last, ⟨b', hb, hroot, ?_⟩, h.behind, h.received,
      Bool.noConfusion⟩ rfl
    exact fun _ p hp => absurd hp (Option.not_mem_none p)
  | unstarted _ =>
    obtain ⟨b, hb, -⟩ := h.block
    cases hb
  | headed last b head => exact h.enter id id rfl
  | unheaded last b e => exact h.enter id id rfl
  | subscribed last b head retries =>
    -- Nothing is sent yet: what was received is what was received before.
    obtain ⟨b', hb, hroot, hle⟩ := h.block
    refine quiet ⟨h.stretch, h.rooted, h.origin, h.last, ⟨b', hb, hroot, fun _ => hle rfl⟩, ?_, ?_,
      fun _ => ⟨[], rs, rfl⟩⟩ rfl
    · intro l h
      obtain ⟨s, hs, hl⟩ := h
      rcases List.mem_cons.mp hs with rfl | hs
      · cases hl
      · exact h.behind l ⟨s, hs, hl⟩
    · intro x hx
      obtain ⟨s, hs, hl⟩ := h.received x hx
      exact ⟨s, List.mem_cons_of_mem _ hs, hl⟩
  | refused last b head retries e _ => exact h.enter id id rfl
  | givenUp last b head retries e _ => exact h.enter (fun _ => rfl) id rfl
  | backedOff last b head retries _ => exact h.enter id id rfl
  | retried last b head retries time _ => exact h.enter id id rfl
  | opened last b head =>
    obtain ⟨b', rfl, -⟩ := h.block
    exact h.enter id id rfl
  | ended last b _ => exact h.enter (fun _ => rfl) (fun _ => rfl) rfl
  | unplaced last b log _ hp =>
    -- a subscription sends logs of the chain, and each of these stands somewhere
    obtain ⟨sent, rest, rfl⟩ := h.current rfl
    obtain ⟨b, rfl, -⟩ := h.block
    have hserves : Serves chain b (sent ++ [log]) := hserved _ List.mem_cons_self
    have hmem := hserves.mem (List.mem_append_right _ (List.mem_singleton_self log))
    obtain ⟨p, hp'⟩ := hc.placed log (List.mem_filter.mp hmem).1
    cases hp.symm.trans hp'
  | skipped last b log p _ hp hlast => exact (h.skip hp hlast).quiet rfl
  | taken last b log p _ hp hlast => exact h.take hc hserved hp hlast
  | handed last b log => exact h.enter id id rfl
  | left last b result => exact h.enter id id rfl
  | cancelled f _ _ => exact h.enter Bool.noConfusion Bool.noConfusion rfl

end Resumed

end EventRelay.Relay
