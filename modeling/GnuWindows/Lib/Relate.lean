/-
  GnuWindows.Lib.Relate — two computations side by side.

  `Alike E x y`: both give the same value, or both fail, with errors that `E` relates.
  `Twins E x y`: from every state `x` and `y` are alike, and leave the same state.
  `Matches R x y`: both give values that `R` relates, or both fail with the same error.

  Proved: the rules for a value, an error, a sequence and a loop over a list, for all three,
  and for the first and the last what such a pair can be (`inversion`);
  for `Twins` those for a step of the state and for an outcome that is known already. Loops
  over lists whose elements are related are equal if their bodies are (`forM_related`,
  `foldlM_related`).
-/
import GnuWindows.Lib.Hoare

namespace GnuWindows.Lib.Hoare

variable {σ ε α β : Type} {E : ε → ε → Prop}

/-! ## Without a state -/

def Alike (E : ε → ε → Prop) : Except ε α → Except ε α → Prop
  | .ok a, .ok b => a = b
  | .error e, .error f => E e f
  | .ok _, .error _ => False
  | .error _, .ok _ => False

namespace Alike

theorem ok {a : α} : Alike E (.ok a) (.ok a) := rfl

theorem error {e f : ε} (h : E e f) : Alike E (.error e : Except ε α) (.error f) := h

theorem refl (hE : ∀ e, E e e) (x : Except ε α) : Alike E x x := by
  cases x with
  | ok a => exact ok
  | error e => exact error (hE e)

/-- What the two give. -/
theorem inversion {x y : Except ε α} (h : Alike E x y) :
    (∃ a, x = .ok a ∧ y = .ok a) ∨ ∃ e f, x = .error e ∧ y = .error f ∧ E e f := by
  cases x with
  | ok a =>
    cases y with
    | ok b =>
      obtain rfl : a = b := h
      exact Or.inl ⟨a, rfl, rfl⟩
    | error e => exact h.elim
  | error e =>
    cases y with
    | ok b => exact h.elim
    | error f => exact Or.inr ⟨e, f, rfl, rfl, h⟩

theorem bind {x y : Except ε α} {f g : α → Except ε β} (h : Alike E x y) (hf : ∀ a, Alike E (f a) (g a)) :
    Alike E (x >>= f) (y >>= g) := by
  rcases h.inversion with ⟨a, rfl, rfl⟩ | ⟨e, f, rfl, rfl, hE⟩
  · exact hf a
  · exact error hE

theorem foldlM {f g : α → β → Except ε α} (h : ∀ a b, Alike E (f a b) (g a b)) (l : List β) (a : α) :
    Alike E (l.foldlM f a) (l.foldlM g a) := by
  induction l generalizing a with
  | nil => exact ok
  | cons b l ih =>
    rw [List.foldlM_cons, List.foldlM_cons]
    exact (h a b).bind ih

theorem forM {l : List β} {f g : β → Except ε Unit} (h : ∀ b, Alike E (f b) (g b)) : Alike E (l.forM f) (l.forM g) := by
  induction l with
  | nil => exact ok
  | cons b l ih => exact (h b).bind fun _ => ih

end Alike

/-! ## With a state -/

def Twins (E : ε → ε → Prop) (x y : Comp σ ε α) : Prop :=
  ∀ s, Alike E (x.run s).1 (y.run s).1 ∧ (x.run s).2 = (y.run s).2

namespace Twins

theorem pure {a : α} : Twins E (Pure.pure a : Comp σ ε α) (Pure.pure a) := fun _ => ⟨Alike.ok, rfl⟩

theorem throw {e f : ε} (h : E e f) : Twins E (MonadExcept.throw e : Comp σ ε α) (MonadExcept.throw f) :=
  fun _ => ⟨Alike.error h, rfl⟩

theorem step {f : σ → σ} : Twins E (Comp.step f : Comp σ ε Unit) (Comp.step f) := fun _ => ⟨Alike.ok, rfl⟩

theorem ofExcept {x y : Except ε α} (h : Alike E x y) : Twins E (Comp.ofExcept x : Comp σ ε α) (Comp.ofExcept y) := by
  rcases h.inversion with ⟨a, rfl, rfl⟩ | ⟨e, f, rfl, rfl, hE⟩
  · exact pure
  · exact throw hE

theorem bind {x y : Comp σ ε α} {f g : α → Comp σ ε β} (h : Twins E x y) (hf : ∀ a, Twins E (f a) (g a)) :
    Twins E (x >>= f) (y >>= g) := by
  intro s
  obtain ⟨hres, hstate⟩ := h s
  rw [Comp.run_bind, Comp.run_bind]
  cases hx : x.run s with
  | mk r s' =>
    cases hy : y.run s with
    | mk r' s'' =>
      rw [hx, hy] at hres hstate
      obtain rfl : s' = s'' := hstate
      simp only at hres
      rcases hres.inversion with ⟨a, rfl, rfl⟩ | ⟨e, f, rfl, rfl, hE⟩
      · exact hf a s'
      · exact ⟨hE, rfl⟩

theorem forM {l : List β} {f g : β → Comp σ ε Unit} (h : ∀ b, Twins E (f b) (g b)) : Twins E (l.forM f) (l.forM g) := by
  induction l with
  | nil => exact pure
  | cons b l ih => exact (h b).bind fun _ => ih

end Twins

/-! ## Related values -/

variable {γ δ : Type} {R : α → β → Prop} {Q : γ → δ → Prop}

def Matches (R : α → β → Prop) : Except ε α → Except ε β → Prop
  | .ok a, .ok b => R a b
  | .error e, .error f => f = e
  | .ok _, .error _ => False
  | .error _, .ok _ => False

namespace Matches

theorem ok {a : α} {b : β} (h : R a b) : Matches R (.ok a : Except ε α) (.ok b) := h

theorem error {e : ε} : Matches R (.error e : Except ε α) (.error e) := rfl

/-- What the two give. -/
theorem inversion {x : Except ε α} {y : Except ε β} (h : Matches R x y) :
    (∃ a b, x = .ok a ∧ y = .ok b ∧ R a b) ∨ ∃ e, x = .error e ∧ y = .error e := by
  cases x with
  | ok a =>
    cases y with
    | ok b => exact Or.inl ⟨a, b, rfl, rfl, h⟩
    | error e => exact h.elim
  | error e =>
    cases y with
    | ok b => exact h.elim
    | error f =>
      obtain rfl : f = e := h
      exact Or.inr ⟨f, rfl, rfl⟩

theorem eq {x y : Except ε α} (h : Matches (fun a b => b = a) x y) : y = x := by
  rcases h.inversion with ⟨a, b, rfl, rfl, rfl⟩ | ⟨e, rfl, rfl⟩ <;> rfl

theorem bind {x : Except ε α} {y : Except ε β} {f : α → Except ε γ} {g : β → Except ε δ} (h : Matches R x y)
    (hf : ∀ a b, R a b → Matches Q (f a) (g b)) : Matches Q (x >>= f) (y >>= g) := by
  rcases h.inversion with ⟨a, b, rfl, rfl, hR⟩ | ⟨e, rfl, rfl⟩
  · exact hf a b hR
  · exact error

theorem foldlM {f : α → γ → Except ε α} {g : β → γ → Except ε β}
    (h : ∀ a b c, R a b → Matches R (f a c) (g b c)) (l : List γ) {a : α} {b : β} (hab : R a b) :
    Matches R (l.foldlM f a) (l.foldlM g b) := by
  induction l generalizing a b with
  | nil => exact ok hab
  | cons c l ih =>
    rw [List.foldlM_cons, List.foldlM_cons]
    exact (h a b c hab).bind fun a b hab => ih hab

end Matches

section

variable {m : Type → Type} [Monad m] {l : List α} {l' : List β}

theorem forM_related {f : α → m Unit} {g : β → m Unit} (h : List.Forall₂ R l l') (hfg : ∀ a b, R a b → g b = f a) :
    l'.forM g = l.forM f := by
  induction h with
  | nil => rfl
  | cons hab _ ih =>
    show (g _ >>= fun _ => List.forM _ g) = (f _ >>= fun _ => List.forM _ f)
    rw [hfg _ _ hab, ih]

theorem foldlM_related {f : γ → α → m γ} {g : γ → β → m γ} (h : List.Forall₂ R l l')
    (hfg : ∀ c a b, R a b → g c b = f c a) (c : γ) : l'.foldlM g c = l.foldlM f c := by
  induction h generalizing c with
  | nil => rfl
  | cons hab _ ih => rw [List.foldlM_cons, List.foldlM_cons, hfg c _ _ hab, funext ih]

end

end GnuWindows.Lib.Hoare
