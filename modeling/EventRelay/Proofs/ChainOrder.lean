import EventRelay.Relay.Following

/-!
# Logs in the order of the chain

A chain holds logs at strictly increasing positions. `since b` is what it holds from block `b` on,
and `Serves` says what a subscription from block `b` may send: some of the logs that are there, the
first ones first, then a stretch of logs as they come, which may repeat some of those and leaves
none out.

Main statements:

* `Serves.gapless`: nothing of the chain from block `b` on is missing before a log that is sent;
* `ChainOrdered.concat`: a beginning of the chain goes on with a log before which nothing is
  missing.
-/

namespace EventRelay

open Relay (atOrBefore)

/-- The number of a position in the order of positions. -/
def rank (p : UInt64 × UInt64) : Nat := p.1.toNat * UInt64.size + p.2.toNat

/-- A position stands before another: in an earlier block, or earlier in the same block. -/
def Precedes (p q : UInt64 × UInt64) : Prop := p.1 < q.1 ∨ p.1 = q.1 ∧ p.2 < q.2

instance : DecidableRel Precedes := fun p q =>
  inferInstanceAs (Decidable (p.1 < q.1 ∨ p.1 = q.1 ∧ p.2 < q.2))

/-- Positions are ordered by their rank. -/
theorem precedes_iff {p q : UInt64 × UInt64} : Precedes p q ↔ rank p < rank q := by
  have hp := p.2.toNat_lt
  have hq := q.2.toNat_lt
  simp only [Precedes, rank, UInt64.size, UInt64.lt_iff_toNat_lt, ← UInt64.toNat_inj]
  omega

/-- The comparison of positions in the program is that of their ranks. -/
theorem atOrBefore_iff {p q : UInt64 × UInt64} : atOrBefore p q = true ↔ rank p ≤ rank q := by
  have hp := p.2.toNat_lt
  have hq := q.2.toNat_lt
  simp only [atOrBefore, rank, UInt64.size, Bool.or_eq_true, Bool.and_eq_true, decide_eq_true_eq,
    UInt64.lt_iff_toNat_lt, UInt64.le_iff_toNat_le, ← UInt64.toNat_inj]
  omega

/-- The block of a position never falls along the order. -/
theorem block_le_of_rank_le {p q : UInt64 × UInt64} (h : rank p ≤ rank q) : p.1 ≤ q.1 := by
  have hp := p.2.toNat_lt
  have hq := q.2.toNat_lt
  simp only [rank, UInt64.size, UInt64.le_iff_toNat_le] at *
  omega

namespace Log

/-- Both logs stand somewhere, the first one before the second. -/
def Before (x y : Log) : Prop :=
  ∃ p q, x.position? = some p ∧ y.position? = some q ∧ Precedes p q

/-- Placed logs are ordered by the rank of their positions. -/
theorem before_iff {x y : Log} {p q : UInt64 × UInt64} (hx : x.position? = some p)
    (hy : y.position? = some q) : x.Before y ↔ rank p < rank q := by
  constructor
  · intro h
    obtain ⟨p', q', hp, hq, h⟩ := h
    obtain rfl := Option.some.inj (hx.symm.trans hp)
    obtain rfl := Option.some.inj (hy.symm.trans hq)
    exact precedes_iff.mp h
  · exact fun h => ⟨p, q, hx, hy, precedes_iff.mpr h⟩

/-- No log is before itself. -/
theorem not_before_self (x : Log) : ¬ x.Before x := by
  intro h
  obtain ⟨p, q, hp, hq, h⟩ := h
  obtain rfl := Option.some.inj (hp.symm.trans hq)
  exact absurd (precedes_iff.mp h) (Nat.lt_irrefl _)

/-- Of two logs at most one is before the other. -/
theorem Before.asymm {x y : Log} (h : x.Before y) : ¬ y.Before x := by
  obtain ⟨p, q, hp, hq, hlt⟩ := h
  rw [before_iff hq hp]
  exact Nat.not_lt.mpr (Nat.le_of_lt (precedes_iff.mp hlt))

/-- A log that has a position has its block. -/
theorem block_of_position {l : Log} {p : UInt64 × UInt64} (h : l.position? = some p) :
    l.block = some p.1 := by
  obtain ⟨block, hb, hrest⟩ := Option.bind_eq_some_iff.mp h
  obtain ⟨index, -, hp⟩ := Option.bind_eq_some_iff.mp hrest
  obtain rfl := Option.some.inj hp
  exact hb

/-- Whether the log stands in block `b` or a later one. -/
def isSince (b : UInt64) (l : Log) : Bool := l.block.any fun n => b ≤ n

theorem isSince_iff {b : UInt64} {l : Log} {p : UInt64 × UInt64} (h : l.position? = some p) :
    l.isSince b = true ↔ b ≤ p.1 := by
  simp [isSince, block_of_position h]

end Log

/-- The logs of a chain from block `b` on. -/
def since (b : UInt64) (chain : List Log) : List Log := chain.filter (·.isSince b)

/-- The logs of a chain before block `b`. -/
def older (b : UInt64) (chain : List Log) : List Log := chain.filter fun l => !l.isSince b

/-- A chain of logs at strictly increasing positions. -/
structure ChainOrdered (chain : List Log) : Prop where
  placed : ∀ l ∈ chain, ∃ p, l.position? = some p
  increasing : chain.Pairwise Log.Before

/-- What a subscription from block `b` may have sent: a beginning of what the chain holds from there
on, and then a stretch of the chain that begins no later than right after that and reaches into no
block before `b`. -/
def Serves (chain : List Log) (b : UInt64) (sent : List Log) : Prop :=
  ∃ history live, sent = history ++ live ∧ history <+: since b chain ∧
    (∀ l ∈ live, l.isSince b = true) ∧
    ∃ earlier later, chain = earlier ++ live ++ later ∧ earlier <+: older b chain ++ history

namespace ChainOrdered

variable {chain done : List Log} {x y l : Log}

theorem since (h : ChainOrdered chain) (b : UInt64) : ChainOrdered (since b chain) :=
  ⟨fun l hl => h.placed l (List.mem_filter.mp hl).1, h.increasing.filter _⟩

/-- What is before a log stands to the left of it. -/
theorem mem_left {xs ys : List Log} (h : ChainOrdered (xs ++ l :: ys)) (hx : x ∈ xs ++ l :: ys)
    (hlt : x.Before l) : x ∈ xs := by
  rcases List.mem_append.mp hx with hl | hr
  · exact hl
  · have htail := (List.pairwise_append.mp h.increasing).2.1
    rcases List.mem_cons.mp hr with rfl | hy
    · exact absurd hlt x.not_before_self
    · exact absurd hlt ((List.pairwise_cons.mp htail).1 x hy).asymm

/-- What does not stand after the end of a beginning of the chain belongs to that beginning. -/
theorem mem_of_not_after (h : ChainOrdered chain) (hp : done <+: chain)
    (hy : done.getLast? = some y) (hx : x ∈ chain) (hle : ¬ y.Before x) : x ∈ done := by
  obtain ⟨rest, rfl⟩ := hp
  rcases List.mem_append.mp hx with hl | hr
  · exact hl
  · have hmem := List.mem_of_getLast? hy
    exact absurd ((List.pairwise_append.mp h.increasing).2.2 y hmem x hr) hle

/-- **A beginning of the chain goes on with a log before which nothing is missing.** -/
theorem concat (h : ChainOrdered chain) (hp : done <+: chain) (hl : l ∈ chain) (hnot : l ∉ done)
    (hgap : ∀ x ∈ chain, x.Before l → x ∈ done) : done ++ [l] <+: chain := by
  obtain ⟨rest, rfl⟩ := hp
  have hrest : l ∈ rest := (List.mem_append.mp hl).resolve_left hnot
  obtain ⟨-, hsorted, hcross⟩ := List.pairwise_append.mp h.increasing
  cases rest with
  | nil => cases hrest
  | cons x rest =>
    rcases List.mem_cons.mp hrest with rfl | hlater
    · exact ⟨rest, by simp⟩
    · -- Some `x` stands between the beginning and `l`; but then it is missing before `l`.
      have hlt : x.Before l := (List.pairwise_cons.mp hsorted).1 l hlater
      have hmem := hgap x (List.mem_append_right _ List.mem_cons_self) hlt
      exact absurd (hcross x hmem x List.mem_cons_self) x.not_before_self

/-- The last of a stretch of the chain stands after all others of it. -/
theorem not_after_last (h : ChainOrdered chain) (hs : done <:+: chain)
    (hy : done.getLast? = some y) (hx : x ∈ done) : ¬ y.Before x := by
  obtain ⟨rest, rfl⟩ := List.getLast?_eq_some_iff.mp hy
  have hsorted := h.increasing.sublist hs.sublist
  rcases List.mem_append.mp hx with hl | hr
  · exact ((List.pairwise_append.mp hsorted).2.2 x hl y (List.mem_singleton_self y)).asymm
  · obtain rfl := List.mem_singleton.mp hr
    exact x.not_before_self

/-- A beginning of the chain goes on with a log when nothing stands between its end and the log. -/
theorem concat_last (h : ChainOrdered chain) (hp : done <+: chain) (hy : done.getLast? = some y)
    (hl : l ∈ chain) (hlt : y.Before l) (hgap : ∀ x ∈ chain, x.Before l → ¬ y.Before x) :
    done ++ [l] <+: chain := by
  refine h.concat hp hl (fun hmem => ?_) fun x hx hxl => h.mem_of_not_after hp hy hx (hgap x hx hxl)
  exact absurd hlt (h.not_after_last hp.isInfix hy hmem)

end ChainOrdered

/-- **Nothing is missing before a log that a subscription sends**: what the chain holds from block
`b` on and before that log was sent earlier. -/
theorem Serves.gapless {chain sent : List Log} {b : UInt64} {l x : Log} (hc : ChainOrdered chain)
    (h : Serves chain b (sent ++ [l])) (hx : x ∈ chain) (hb : x.isSince b = true)
    (hlt : x.Before l) : x ∈ sent := by
  obtain ⟨history, live, hsent, ⟨rest, hhist⟩, hlive, earlier, later, hchain, hearly⟩ := h
  rcases List.eq_nil_or_concat live with rfl | ⟨live, l', rfl⟩
  · -- `l` ends what was there: what stands before it was there as well
    rw [List.append_nil] at hsent
    have hx' : x ∈ since b chain := List.mem_filter.mpr ⟨hx, hb⟩
    have hc' := hc.since b
    rw [← hhist, ← hsent, List.append_assoc] at hx' hc'
    exact hc'.mem_left hx' hlt
  · -- `l` is the newest: what stands before it came just before, or was there
    rw [List.concat_eq_append, ← List.append_assoc] at hsent
    obtain ⟨rfl, hl⟩ := List.append_inj' hsent rfl
    obtain rfl := List.singleton_inj.mp hl
    rw [List.concat_eq_append, List.append_assoc, List.append_assoc, List.singleton_append,
      ← List.append_assoc] at hchain
    have hleft : x ∈ earlier ++ live := by
      rw [hchain] at hx hc
      exact hc.mem_left hx hlt
    rcases List.mem_append.mp hleft with he | hl
    · -- The stretch begins no later than after the history, so `x` is in it or too old.
      rcases List.mem_append.mp (hearly.subset he) with hold | hold
      · have := (List.mem_filter.mp hold).2
        rw [hb] at this
        cases this
      · exact List.mem_append_left _ hold
    · exact List.mem_append_right _ hl

/-- What is sent is on the chain since the block that was asked for. -/
theorem Serves.mem {chain sent : List Log} {b : UInt64} {l : Log} (h : Serves chain b sent)
    (hl : l ∈ sent) : l ∈ since b chain := by
  obtain ⟨history, live, rfl, hhist, hlive, earlier, later, hchain, -⟩ := h
  rcases List.mem_append.mp hl with hmem | hmem
  · exact hhist.subset hmem
  · refine List.mem_filter.mpr ⟨?_, hlive l hmem⟩
    rw [hchain]
    exact List.mem_append_left _ (List.mem_append_right _ hmem)

/-- A subscription may have sent a beginning of what was there. -/
theorem Serves.of_isPrefix {chain sent : List Log} {b : UInt64} (h : sent <+: since b chain) :
    Serves chain b sent :=
  ⟨sent, [], (List.append_nil sent).symm, h, fun _ hx => absurd hx List.not_mem_nil, [], chain, rfl,
    List.nil_prefix⟩

/-- What was sent before the last log was served in its turn too. -/
theorem Serves.init {chain sent : List Log} {b : UInt64} {l : Log}
    (h : Serves chain b (sent ++ [l])) : Serves chain b sent := by
  obtain ⟨history, live, hsent, hhist, hlive, earlier, later, hchain, hearly⟩ := h
  rcases List.eq_nil_or_concat live with rfl | ⟨live, l', rfl⟩
  · -- nothing came as it was made: what was there is cut short
    rw [List.append_nil] at hsent
    exact .of_isPrefix ((List.prefix_append sent [l]).trans (hsent ▸ hhist))
  · -- the stretch ends one log earlier
    rw [List.concat_eq_append, ← List.append_assoc] at hsent
    obtain ⟨rfl, -⟩ := List.append_inj' hsent rfl
    rw [List.concat_eq_append] at hlive hchain
    refine ⟨history, live, rfl, hhist, ?_, earlier, [l'] ++ later, ?_, hearly⟩
    · exact fun x hx => hlive x (List.mem_append_left _ hx)
    · simpa only [List.append_assoc] using hchain

end EventRelay
