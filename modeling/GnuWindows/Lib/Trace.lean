/-
  GnuWindows.Lib.Trace — lists of states, each a step after the one before it.

  Proved:
  - `inv`, `back`: what a step keeps, forwards or backwards, holds in every state.
  - `isChain_iff_forall`: a condition on steps that is one on the state before them.
  - `nodup_events`, `log_events`: events that happen once, and a log of them.
-/
import Mathlib.Data.List.Chain
import Mathlib.Tactic.Common

namespace GnuWindows.Lib.Trace

variable {σ ε : Type} {R R' : σ → σ → Prop} {I P : σ → Prop} {trace : List σ}

/-! ## Invariants -/

/-- What holds at the start and is kept by every step holds in every state. -/
theorem inv {a : σ} (htrace : trace.IsChain R) (hhead : trace.head? = some a) (hstart : I a)
    (hstep : ∀ x ∈ trace, ∀ y ∈ trace, R x y → I x → I y) : ∀ x ∈ trace, I x := by
  have hkeep : trace.IsChain fun x y => I x → I y := htrace.imp_of_mem_imp fun x y hx hy h => hstep x hx y hy h
  apply hkeep.induction I trace fun _ _ h => h
  intro hne
  rw [List.head?_eq_some_head hne] at hhead
  rw [Option.some.inj hhead]
  exact hstart

/-- What holds at the end, and holds before every step after which it holds. -/
theorem back {e : σ} (htrace : trace.IsChain R) (hlast : trace.getLast? = some e) (hend : I e)
    (hstep : ∀ x ∈ trace, ∀ y ∈ trace, R x y → I y → I x) : ∀ x ∈ trace, I x := by
  have hkeep : trace.IsChain fun x y => I y → I x := htrace.imp_of_mem_imp fun x y hx hy h => hstep x hx y hy h
  apply hkeep.backwards_induction I trace fun _ _ h => h
  intro hne
  rw [List.getLast?_eq_some_getLast hne] at hlast
  rw [Option.some.inj hlast]
  exact hend

theorem isChain_and (h : trace.IsChain R) (h' : trace.IsChain R') : trace.IsChain fun x y => R x y ∧ R' x y := by
  rw [List.isChain_iff_getElem] at *
  exact fun i hi => ⟨h i hi, h' i hi⟩

/-- A condition on the first of two states, in every state. -/
theorem isChain_iff_forall (h : trace.IsChain fun x y => R x y ↔ P x) (hlast : ∀ x, trace.getLast? = some x → P x) :
    trace.IsChain R ↔ ∀ x ∈ trace, P x := by
  induction trace with
  | nil => simp
  | cons a l ih =>
    cases l with
    | nil =>
      apply iff_of_true (List.isChain_singleton a)
      intro x hx
      rw [List.mem_singleton.mp hx]
      exact hlast a rfl
    | cons b l =>
      rw [List.isChain_cons_cons] at h
      rw [List.isChain_cons_cons, h.1, ih h.2 (by simpa using hlast)]
      simp

/-! ## Events -/

/-- An event that was not seen yet when it happens, and is seen ever after, happens once. -/
theorem nodup_events (event : σ → Option ε) (seen : σ → ε → Prop) (htrace : trace.IsChain R)
    (hnew : ∀ x ∈ trace, ∀ e, event x = some e → ¬ seen x e)
    (hsee : ∀ x y, R x y → ∀ e, seen x e ∨ event x = some e → seen y e) : (trace.filterMap event).Nodup := by
  suffices h : ∀ x l, (x :: l).IsChain R → (∀ y ∈ x :: l, ∀ e, event y = some e → ¬ seen y e) →
      ((x :: l).filterMap event).Nodup ∧ ∀ e ∈ (x :: l).filterMap event, ¬ seen x e by
    cases trace with
    | nil => exact List.nodup_nil
    | cons x l => exact (h x l htrace hnew).1
  intro x l
  induction l generalizing x with
  | nil =>
    intro _ hnew
    have hx := hnew x List.mem_cons_self
    cases he : event x with
    | none => simp [he]
    | some e => simpa [he] using hx e he
  | cons y l ih =>
    intro hchain hnew
    obtain ⟨hxy, hchain⟩ := List.isChain_cons_cons.mp hchain
    obtain ⟨hnodup, hunseen⟩ := ih y hchain fun z hz => hnew z (List.mem_cons_of_mem x hz)
    have hafter : ∀ e ∈ (y :: l).filterMap event, ¬ seen x e ∧ event x ≠ some e := by
      intro e he
      exact not_or.mp fun h => hunseen e he (hsee x y hxy e h)
    cases he : event x with
    | none =>
      rw [List.filterMap_cons_none he]
      exact ⟨hnodup, fun e hm => (hafter e hm).1⟩
    | some e =>
      rw [List.filterMap_cons_some he]
      refine ⟨List.nodup_cons.mpr ⟨fun hm => (hafter e hm).2 he, hnodup⟩, ?_⟩
      intro e' hm
      rcases List.mem_cons.mp hm with rfl | hm
      · exact hnew x List.mem_cons_self e' he
      · exact (hafter e' hm).1

/-- A log that grows by the event of each state holds, in a state, the events before it. -/
theorem log_events (event : σ → Option ε) (log : σ → List ε) (htrace : trace.IsChain R)
    (hlog : ∀ x y, R x y → log y = log x ++ (event x).toList) {x y : σ} {before after : List σ}
    (hx : trace.head? = some x) (hy : trace = before ++ y :: after) : log y = log x ++ before.filterMap event := by
  subst hy
  induction before generalizing x with
  | nil =>
    cases hx
    simp
  | cons z before ih =>
    cases hx
    cases hb : before ++ y :: after with
    | nil => simp at hb
    | cons w rest =>
      rw [List.cons_append, hb] at htrace
      obtain ⟨hzw, htrace⟩ := List.isChain_cons_cons.mp htrace
      rw [ih (hb ▸ htrace) (by rw [hb]; rfl), hlog _ _ hzw]
      cases he : event z <;> simp [he]

end GnuWindows.Lib.Trace
