/-
  GnuWindows.Lib.Cut — a text that is cut before it is decoded.

  `Reads C s t`: rune by rune the decoder comes from `s` to its end `t`. A decoder resyncs
  (`Resyncs`) when a rune that a cut goes through costs more elements in the two parts than
  as a whole, and any other rune is read as without the cut.

  Proved: parts are converted as the whole if and only if no rune goes over a cut, for two
  parts (`converted_append_iff`) and for the blocks of a text (`converted_blocks_iff`).
-/
import GnuWindows.Lib.Transcode
import GnuWindows.Lib.Blocks

namespace GnuWindows.Lib.Transcode.Codec

open GnuWindows.Lib.Blocks (blocks blocks_nil blocks_cons blocks_induction)

variable {α β : Type} (C : Codec α β)

/-- The elements of all runes. -/
def converted (s : List α) : List β := (C.runes s).flatMap C.encode

inductive Reads : List α → List α → Prop
  | refl (s : List α) : Reads s s
  | step {s t : List α} : s ≠ [] → Reads (C.decode s).1 t → Reads s t

structure Resyncs : Prop where
  cut : ∀ s t : List α, s ≠ [] → C.decode (s ++ t) = ((C.decode s).1 ++ t, (C.decode s).2) ∨
    ((C.decode (s ++ t)).1.length < t.length ∧
      (C.converted (s ++ t)).length < (C.converted s).length + (C.converted t).length)

variable {C}

theorem converted_nil : C.converted [] = [] := by rw [converted, runes_nil, List.flatMap_nil]

theorem converted_cons {s : List α} (h : s ≠ []) :
    C.converted s = C.encode (C.decode s).2 ++ C.converted (C.decode s).1 := by
  rw [converted, runes_cons _ h, List.flatMap_cons, converted]

namespace Reads

variable {s t u : List α}

theorem length_le (h : C.Reads s t) : t.length ≤ s.length := by
  induction h with
  | refl s => exact Nat.le_refl _
  | step hs _ ih => exact Nat.le_trans ih (Nat.le_of_lt (C.takes hs))

theorem trans (h : C.Reads s t) (h' : C.Reads t u) : C.Reads s u := by
  induction h with
  | refl s => exact h'
  | step hs _ ih => exact .step hs (ih h')

/-- Every string is read to its end. -/
theorem nil (s : List α) : C.Reads s [] := by
  induction s using runes.induct C with
  | case1 => exact .refl []
  | case2 s hs ih => exact .step hs ih

/-- There is one way to read. -/
theorem of_le (h : C.Reads s t) (h' : C.Reads s u) (hle : u.length ≤ t.length) : C.Reads t u := by
  induction h with
  | refl s => exact h'
  | step hs hread ih =>
    cases h' with
    | refl => exact absurd (Nat.lt_of_le_of_lt hread.length_le (C.takes hs)) (Nat.not_lt.mpr hle)
    | step _ h' => exact ih h' hle

end Reads

section

variable (hC : C.Resyncs)
include hC

/-- Parts cost no less than the whole, and no more only if the whole is read up to the
    second part. -/
theorem converted_append (s t : List α) :
    (C.Reads (s ++ t) t ∧ C.converted (s ++ t) = C.converted s ++ C.converted t) ∨
      (¬ C.Reads (s ++ t) t ∧ (C.converted (s ++ t)).length < (C.converted s).length + (C.converted t).length) := by
  induction s using runes.induct C with
  | case1 => exact Or.inl ⟨.refl t, by rw [converted_nil]; rfl⟩
  | case2 s hs ih =>
    have hne : s ++ t ≠ [] := List.append_ne_nil_of_left_ne_nil hs t
    have hstep : C.Reads (s ++ t) t ↔ C.Reads (C.decode (s ++ t)).1 t := by
      refine ⟨fun h => ?_, .step hne⟩
      generalize hw : s ++ t = w at h hne
      cases h with
      | refl => exact absurd (List.append_left_eq_self.mp hw) hs
      | step _ h => exact h
    rcases hC.cut s t hs with hsame | ⟨hpast, hlt⟩
    · rw [hstep, converted_cons hne, hsame, converted_cons hs]
      rcases ih with ⟨hreads, heq⟩ | ⟨hreads, hlt⟩
      · exact Or.inl ⟨hreads, by rw [heq, List.append_assoc]⟩
      · refine Or.inr ⟨hreads, ?_⟩
        simp only [List.length_append]
        omega
    · refine Or.inr ⟨fun h => ?_, hlt⟩
      have := (hstep.mp h).length_le
      omega

theorem converted_append_iff (s t : List α) :
    C.converted (s ++ t) = C.converted s ++ C.converted t ↔ C.Reads (s ++ t) t := by
  rcases converted_append hC s t with ⟨hreads, heq⟩ | ⟨hreads, hlt⟩
  · exact iff_of_true heq hreads
  · refine iff_of_false (fun heq => ?_) hreads
    rw [heq, List.length_append] at hlt
    exact Nat.lt_irrefl _ hlt

theorem length_converted_le {cap : Nat} (hcap : 0 < cap) (s : List α) :
    (C.converted s).length ≤ ((blocks cap s).flatMap C.converted).length := by
  induction s using blocks_induction hcap with
  | nil =>
    rw [converted_nil]
    exact Nat.zero_le _
  | cons s hs ih =>
    rw [blocks_cons hcap hs, List.flatMap_cons, List.length_append]
    have hparts := converted_append hC (s.take cap) (s.drop cap)
    rw [List.take_append_drop] at hparts
    rcases hparts with ⟨-, heq⟩ | ⟨-, hlt⟩
    · rw [heq, List.length_append]
      exact Nat.add_le_add_left ih _
    · omega

/-- Blocks are converted as the whole if and only if the whole is read up to every one of
    them. -/
theorem converted_blocks_iff {cap : Nat} (hcap : 0 < cap) (s : List α) :
    (blocks cap s).flatMap C.converted = C.converted s ↔ ∀ k, k * cap ≤ s.length → C.Reads s (s.drop (k * cap)) := by
  induction s using blocks_induction hcap with
  | nil =>
    rw [blocks_nil, converted_nil]
    exact iff_of_true rfl fun k _ => by rw [List.drop_nil]; exact .refl []
  | cons s hs ih =>
    have hparts := converted_append_iff hC (s.take cap) (s.drop cap)
    have hlen := length_converted_le hC hcap (s.drop cap)
    have hcost := converted_append hC (s.take cap) (s.drop cap)
    rw [List.take_append_drop] at hparts hcost
    rw [blocks_cons hcap hs, List.flatMap_cons]
    constructor
    · intro heq
      -- the first cut costs nothing, so the whole is read up to it
      have hreads : C.Reads s (s.drop cap) := by
        rcases hcost with ⟨hreads, -⟩ | ⟨-, hlt⟩
        · exact hreads
        · rw [← heq, List.length_append] at hlt
          omega
      have hrest := ih.mp (List.append_cancel_left (heq.trans (hparts.mpr hreads)))
      intro k hk
      cases k with
      | zero =>
        rw [Nat.zero_mul]
        exact .refl s
      | succ k =>
        rw [Nat.succ_mul] at hk ⊢
        have hdrop : s.drop (k * cap + cap) = (s.drop cap).drop (k * cap) := by rw [List.drop_drop, Nat.add_comm]
        rw [hdrop]
        exact hreads.trans (hrest k (by rw [List.length_drop]; omega))
    · intro hall
      have hreads : C.Reads s (s.drop cap) := by
        by_cases hle : cap ≤ s.length
        · simpa only [Nat.one_mul] using hall 1 (by omega)
        · rw [List.drop_of_length_le (by omega)]
          exact .nil s
      rw [hparts.mpr hreads]
      refine congrArg _ (ih.mpr fun k hk => ?_)
      rw [List.length_drop] at hk
      have hdrop : (s.drop cap).drop (k * cap) = s.drop ((k + 1) * cap) := by
        rw [List.drop_drop, Nat.succ_mul, Nat.add_comm]
      rw [hdrop]
      by_cases hle : cap ≤ s.length
      · refine hreads.of_le (hall (k + 1) ?_) ?_
        · rw [Nat.succ_mul]
          omega
        · simp only [List.length_drop, Nat.succ_mul]
          omega
      · rw [List.drop_of_length_le (show s.length ≤ cap by omega), List.drop_of_length_le (by rw [Nat.succ_mul]; omega)]
        exact .refl []

end

end GnuWindows.Lib.Transcode.Codec
