import Mathlib.Order.MinMax

/-!
# Merging tagged spans

A span is a closed interval with a tag.  Merging goes through spans in the order
of their starts and lets a span that meets the one before it grow into it; the
merged span keeps the tag of its first.  What was covered stays covered.  A tag
may go; what is true of it stays true of some tag if it passes from each span to
the spans it starts in.
-/

namespace Spans

open List

structure Span (α τ : Type*) where
  start : α
  stop : α
  tag : τ
  deriving DecidableEq, Repr

variable {α τ : Type*} [LinearOrder α]

def Span.Holds (s : Span α τ) (x : α) : Prop := s.start ≤ x ∧ x ≤ s.stop

instance (s : Span α τ) (x : α) : Decidable (s.Holds x) := inferInstanceAs (Decidable (_ ∧ _))

/-- `last` takes in a span that starts inside it. -/
def Span.grow (last s : Span α τ) : Span α τ :=
  if last.stop < s.stop then { last with stop := s.stop } else last

/-- `last` is the span that may still grow. -/
def merge (last : Span α τ) : List (Span α τ) → List (Span α τ)
  | [] => [last]
  | s :: l =>
    if s.start ≤ last.stop then merge (last.grow s) l else last :: merge s l

variable {last : Span α τ} {l : List (Span α τ)} {x : α}

lemma Span.grow_start (last s : Span α τ) : (last.grow s).start = last.start := by
  unfold Span.grow
  split <;> rfl

lemma Span.grow_tag (last s : Span α τ) : (last.grow s).tag = last.tag := by
  unfold Span.grow
  split <;> rfl

lemma Span.grow_stop (last s : Span α τ) : (last.grow s).stop = max last.stop s.stop := by
  unfold Span.grow
  split
  · rename_i hlt
    exact (max_eq_right (le_of_lt hlt)).symm
  · rename_i hge
    exact (max_eq_left (not_lt.mp hge)).symm

/-- The grown span takes the place of the two. -/
lemma sorted_grow {s : Span α τ} (hsorted : (last :: s :: l).Pairwise fun s t => s.start ≤ t.start) :
    (last.grow s :: l).Pairwise fun s t => s.start ≤ t.start := by
  obtain ⟨hlast, hrest⟩ := pairwise_cons.mp hsorted
  apply pairwise_cons.mpr
  constructor
  · intro u hu
    rw [Span.grow_start]
    exact hlast u (mem_cons_of_mem s hu)
  · exact (pairwise_cons.mp hrest).2

/-- Merging covers what the spans cover. -/
theorem holds_merge (hsorted : (last :: l).Pairwise fun s t => s.start ≤ t.start)
    (h : ∃ s ∈ last :: l, s.Holds x) : ∃ s ∈ merge last l, s.Holds x := by
  induction l generalizing last with
  | nil => exact h
  | cons s l ih =>
    obtain ⟨hlast, hrest⟩ := pairwise_cons.mp hsorted
    obtain ⟨t, ht, hx⟩ := h
    rw [merge]
    split
    · apply ih (sorted_grow hsorted)
      rcases mem_cons.mp ht with rfl | ht
      · refine ⟨_, mem_cons_self, ?_, ?_⟩
        · rw [Span.grow_start]
          exact hx.1
        · rw [Span.grow_stop]
          exact le_trans hx.2 (le_max_left _ _)
      · rcases mem_cons.mp ht with rfl | ht
        · refine ⟨_, mem_cons_self, ?_, ?_⟩
          · rw [Span.grow_start]
            exact le_trans (hlast t mem_cons_self) hx.1
          · rw [Span.grow_stop]
            exact le_trans hx.2 (le_max_right _ _)
        · exact ⟨t, mem_cons_of_mem _ ht, hx⟩
    · rcases mem_cons.mp ht with rfl | ht
      · exact ⟨t, mem_cons_self, hx⟩
      · obtain ⟨u, hu, hux⟩ := ih hrest ⟨t, ht, hx⟩
        exact ⟨u, mem_cons_of_mem _ hu, hux⟩

/-- It covers nothing else, -/
theorem holds_of_merge (h : ∃ s ∈ merge last l, s.Holds x) : ∃ s ∈ last :: l, s.Holds x := by
  induction l generalizing last with
  | nil => exact h
  | cons s l ih =>
    rw [merge] at h
    split at h
    · rename_i hmeet
      obtain ⟨t, ht, hx⟩ := ih h
      rcases mem_cons.mp ht with rfl | ht
      · rw [Span.Holds, Span.grow_start, Span.grow_stop, le_max_iff] at hx
        by_cases hlast : x ≤ last.stop
        · exact ⟨last, mem_cons_self, hx.1, hlast⟩
        · refine ⟨s, mem_cons_of_mem _ mem_cons_self, ?_, hx.2.resolve_left hlast⟩
          exact le_trans hmeet (le_of_lt (not_le.mp hlast))
      · exact ⟨t, mem_cons_of_mem _ (mem_cons_of_mem _ ht), hx⟩
    · obtain ⟨t, ht, hx⟩ := h
      rcases mem_cons.mp ht with rfl | ht
      · exact ⟨t, mem_cons_self, hx⟩
      · obtain ⟨u, hu, hux⟩ := ih ⟨t, ht, hx⟩
        exact ⟨u, mem_cons_of_mem _ hu, hux⟩

lemma start_le_of_mem_merge (hsorted : (last :: l).Pairwise fun s t => s.start ≤ t.start)
    {m : Span α τ} (hm : m ∈ merge last l) : last.start ≤ m.start := by
  induction l generalizing last with
  | nil => exact le_of_eq (congrArg Span.start (mem_singleton.mp hm)).symm
  | cons s l ih =>
    obtain ⟨hlast, hrest⟩ := pairwise_cons.mp hsorted
    rw [merge] at hm
    split at hm
    · rw [← Span.grow_start last s]
      exact ih (sorted_grow hsorted) hm
    · rcases mem_cons.mp hm with rfl | hm
      · exact le_refl _
      · exact le_trans (hlast s mem_cons_self) (ih hrest hm)

/-- and the merged spans are apart. -/
theorem apart_merge (hsorted : (last :: l).Pairwise fun s t => s.start ≤ t.start) :
    (merge last l).Pairwise fun s t => s.stop < t.start := by
  induction l generalizing last with
  | nil => exact pairwise_singleton _ _
  | cons s l ih =>
    obtain ⟨hlast, hrest⟩ := pairwise_cons.mp hsorted
    rw [merge]
    split
    · exact ih (sorted_grow hsorted)
    · rename_i hgap
      apply pairwise_cons.mpr
      refine ⟨fun m hm => ?_, ih hrest⟩
      exact lt_of_lt_of_le (not_le.mp hgap) (start_le_of_mem_merge hrest hm)

lemma forall_merge {P : α → α → Prop} (hP : ∀ {a b c}, P a b → b ≤ c → P a c)
    (h : ∀ s ∈ last :: l, P s.start s.stop) : ∀ m ∈ merge last l, P m.start m.stop := by
  induction l generalizing last with
  | nil => exact h
  | cons s l ih =>
    obtain ⟨hlast, hrest⟩ := forall_mem_cons.mp h
    rw [merge]
    split
    · refine ih (forall_mem_cons.mpr ⟨?_, (forall_mem_cons.mp hrest).2⟩)
      rw [Span.grow_start, Span.grow_stop]
      exact hP hlast (le_max_left _ _)
    · exact forall_mem_cons.mpr ⟨hlast, ih hrest⟩

/-- A fact about tags that passes from a span to the earlier ones it starts in is not lost. -/
theorem tag_merge {Q : τ → Prop}
    (hpass : (last :: l).Pairwise fun s t => t.start ≤ s.stop → Q t.tag → Q s.tag)
    {s : Span α τ} (hs : s ∈ last :: l) (hq : Q s.tag) : ∃ m ∈ merge last l, Q m.tag := by
  induction l generalizing last s with
  | nil => exact ⟨s, hs, hq⟩
  | cons t l ih =>
    obtain ⟨hlast, hrest⟩ := pairwise_cons.mp hpass
    rw [merge]
    split
    · rename_i hmeet
      have hgrown : (last.grow t :: l).Pairwise fun s t => t.start ≤ s.stop → Q t.tag → Q s.tag := by
        obtain ⟨ht, hl⟩ := pairwise_cons.mp hrest
        refine pairwise_cons.mpr ⟨fun u hu hstart hu' => ?_, hl⟩
        rw [Span.grow_stop, le_max_iff] at hstart
        rw [Span.grow_tag]
        rcases hstart with hstart | hstart
        · exact hlast u (mem_cons_of_mem t hu) hstart hu'
        · exact hlast t mem_cons_self hmeet (ht u hu hstart hu')
      rcases mem_cons.mp hs with rfl | hs
      · exact ih hgrown mem_cons_self (Span.grow_tag s t ▸ hq)
      rcases mem_cons.mp hs with rfl | hs
      · exact ih hgrown mem_cons_self (Span.grow_tag last s ▸ hlast s mem_cons_self hmeet hq)
      · exact ih hgrown (mem_cons_of_mem _ hs) hq
    · rcases mem_cons.mp hs with rfl | hs
      · exact ⟨s, mem_cons_self, hq⟩
      · obtain ⟨m, hm, hmq⟩ := ih hrest hs hq
        exact ⟨m, mem_cons_of_mem _ hm, hmq⟩

end Spans
