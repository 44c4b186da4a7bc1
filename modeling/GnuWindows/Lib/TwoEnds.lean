/-
  GnuWindows.Lib.TwoEnds — regions that are taken from the two ends of a free interval.

  What is taken from the low end begins there. What is taken from the high end may leave a
  gap above it.

  Proved: what is free is apart from what was taken (`free_apart`), and this and the order
  of the ends is kept (`Take.keeps`).
-/
import Mathlib.Tactic.Common

namespace GnuWindows.Lib.TwoEnds

structure Region where
  start : Nat
  len : Nat
  deriving DecidableEq

namespace Region

variable {lo hi : Nat} {r t : Region}

def Apart (r t : Region) : Prop := r.start + r.len ≤ t.start ∨ t.start + t.len ≤ r.start

def In (r : Region) (lo hi : Nat) : Prop := lo ≤ r.start ∧ r.start + r.len ≤ hi

theorem In.mono {lo' hi' : Nat} (h : r.In lo hi) (hlo : lo' ≤ lo) (hhi : hi ≤ hi') : r.In lo' hi' :=
  ⟨Nat.le_trans hlo h.1, Nat.le_trans h.2 hhi⟩

end Region

/-- What is free, and what was taken. -/
structure Space where
  lo : Nat
  hi : Nat
  taken : List Region

variable {lo hi : Nat} {s t : Space}

inductive Take : Space → Space → Prop
  | low {s : Space} (n : Nat) (h : s.lo + n ≤ s.hi) : Take s ⟨s.lo + n, s.hi, ⟨s.lo, n⟩ :: s.taken⟩
  | high {s : Space} (n gap : Nat) (h : s.lo + (n + gap) ≤ s.hi) :
      Take s ⟨s.lo, s.hi - (n + gap), ⟨s.hi - (n + gap), n⟩ :: s.taken⟩

/-- The free part of `[lo, hi)` is between the regions from its low end and those from its
    high end. -/
structure Inv (lo hi : Nat) (s : Space) : Prop where
  low : lo ≤ s.lo
  le : s.lo ≤ s.hi
  high : s.hi ≤ hi
  sides : ∀ r ∈ s.taken, r.In lo s.lo ∨ r.In s.hi hi
  apart : s.taken.Pairwise Region.Apart

theorem Inv.start (h : lo ≤ hi) : Inv lo hi ⟨lo, hi, []⟩ :=
  ⟨Nat.le_refl lo, h, Nat.le_refl hi, fun _ hr => absurd hr List.not_mem_nil, .nil⟩

/-- Every region is in the whole interval. -/
theorem Inv.inside (h : Inv lo hi s) {r : Region} (hr : r ∈ s.taken) : r.In lo hi := by
  rcases h.sides r hr with hlow | hhigh
  · exact hlow.mono (Nat.le_refl lo) (Nat.le_trans h.le h.high)
  · exact hhigh.mono (Nat.le_trans h.low h.le) (Nat.le_refl hi)

/-- A region that is free is apart from those that were taken. -/
theorem free_apart (h : Inv lo hi s) {r : Region} (hr : r.In s.lo s.hi) : ∀ t ∈ s.taken, r.Apart t := by
  intro t ht
  rcases h.sides t ht with hlow | hhigh
  · exact .inr (Nat.le_trans hlow.2 hr.1)
  · exact .inl (Nat.le_trans hr.2 hhigh.1)

theorem Take.keeps (h : Inv lo hi s) (ht : Take s t) : Inv lo hi t := by
  have hle := h.le
  cases ht with
  | low n hn =>
    have hfree : Region.In ⟨s.lo, n⟩ s.lo s.hi := ⟨Nat.le_refl _, hn⟩
    refine ⟨Nat.le_trans h.low (Nat.le_add_right _ _), hn, h.high, List.forall_mem_cons.mpr ⟨?_, fun r hr => ?_⟩,
      List.pairwise_cons.mpr ⟨free_apart h hfree, h.apart⟩⟩
    · exact .inl ⟨h.low, Nat.le_refl _⟩
    · exact (h.sides r hr).imp_left fun hlow => hlow.mono (Nat.le_refl lo) (Nat.le_add_right _ _)
  | high n gap hn =>
    have hfree : Region.In ⟨s.hi - (n + gap), n⟩ s.lo s.hi := by
      constructor
      · exact Nat.le_sub_of_add_le hn
      · show s.hi - (n + gap) + n ≤ s.hi
        omega
    refine ⟨h.low, hfree.1, Nat.le_trans (Nat.sub_le _ _) h.high, List.forall_mem_cons.mpr ⟨?_, fun r hr => ?_⟩,
      List.pairwise_cons.mpr ⟨free_apart h hfree, h.apart⟩⟩
    · exact .inr ⟨Nat.le_refl _, Nat.le_trans hfree.2 h.high⟩
    · exact (h.sides r hr).imp_right fun hhigh => hhigh.mono (Nat.sub_le _ _) (Nat.le_refl hi)

end GnuWindows.Lib.TwoEnds
