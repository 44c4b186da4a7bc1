/-
  GnuWindows.Lib.Scan — loops that move a cursor through an input with an end.

  A turn gives the next state or a result, or fails. A turn that does not bring the cursor
  forward, or brings it past the end, fails in a way of its own, so every loop ends.

  Proved: `loop_ends`, a loop whose turns keep an invariant, bring the cursor forward and
  do not fail gives a result.
-/
import Mathlib.Tactic.Common

namespace GnuWindows.Lib.Scan

variable {τ ρ ε : Type} (limit : Nat) (pos : τ → Nat)

def loop (stuck : ε) (turn : τ → Except ε (τ ⊕ ρ)) (t : τ) : Except ε ρ :=
  match turn t with
  | .error e => .error e
  | .ok (.inr r) => .ok r
  | .ok (.inl t') => if _h : pos t < pos t' ∧ pos t' ≤ limit then loop stuck turn t' else .error stuck
termination_by limit - pos t

theorem ok_bind {α β : Type} (a : α) (f : α → Except ε β) : (Except.ok a >>= f) = f a := rfl

section

variable {limit pos} {stuck : ε} {turn : τ → Except ε (τ ⊕ ρ)} {t t' : τ}

theorem loop_stop {r : ρ} (h : turn t = .ok (.inr r)) : loop limit pos stuck turn t = .ok r := by rw [loop, h]

theorem loop_fails {e : ε} (h : turn t = .error e) : loop limit pos stuck turn t = .error e := by rw [loop, h]

theorem loop_next (h : turn t = .ok (.inl t')) (hlt : pos t < pos t') (hle : pos t' ≤ limit) :
    loop limit pos stuck turn t = loop limit pos stuck turn t' := by
  rw [loop, h]
  exact dif_pos ⟨hlt, hle⟩

end

/-- A turn from `t` that does not fail. -/
inductive Goes (I : τ → Prop) (Q : ρ → Prop) (t : τ) : Except ε (τ ⊕ ρ) → Prop
  | next {t' : τ} (hlt : pos t < pos t') (hle : pos t' ≤ limit) (hI : I t') : Goes I Q t (.ok (.inl t'))
  | stop {r : ρ} (hQ : Q r) : Goes I Q t (.ok (.inr r))

variable {limit pos} {stuck : ε} {turn : τ → Except ε (τ ⊕ ρ)} {I : τ → Prop} {Q : ρ → Prop}

theorem Goes.imp {I' : τ → Prop} {Q' : ρ → Prop} {t : τ} {outcome : Except ε (τ ⊕ ρ)}
    (h : Goes limit pos I Q t outcome) (hI : ∀ t', I t' → I' t') (hQ : ∀ r, Q r → Q' r) :
    Goes limit pos I' Q' t outcome := by
  cases h with
  | next hlt hle ht => exact .next hlt hle (hI _ ht)
  | stop hr => exact .stop (hQ _ hr)

/-- The loop rule: every turn keeps the invariant, and the last one gives `Q`. -/
theorem loop_ends (hturn : ∀ t, I t → Goes limit pos I Q t (turn t)) {t : τ} (ht : I t) :
    ∃ r, loop limit pos stuck turn t = .ok r ∧ Q r := by
  induction hn : limit - pos t using Nat.strongRecOn generalizing t with
  | ind n ih =>
    subst hn
    have hgoes := hturn t ht
    rw [loop]
    generalize turn t = outcome at hgoes ⊢
    cases hgoes with
    | @next t' hlt hle hI =>
      simp only [dif_pos (And.intro hlt hle)]
      exact ih (limit - pos t') (by omega) hI rfl
    | @stop r hQ => exact ⟨r, rfl, hQ⟩

end GnuWindows.Lib.Scan
