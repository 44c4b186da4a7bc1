/-
  GnuWindows.Lib.Hoare — pre- and postconditions for computations that may fail, with and
  without a state.

  `Ends x Q E`: `x` gives a value with `Q` or fails with an error with `E`.
  `Triple P x Q E`: from a state with `P`, `x` gives a value and a state with `Q` or fails
  with an error, in a state, with `E`.

  Proved, for each: the rules for a value, an error, a sequence, a loop over a list (with
  an invariant) and a weaker condition; for `Triple` those for a step of the state, for a
  computation without one, for a conjunction and for a loop that a measure ends.
-/
import Mathlib.Tactic.Common

namespace GnuWindows.Lib.Hoare

variable {σ ε α β : Type}

/-! ## Without a state -/

def Ends (x : Except ε α) (Q : α → Prop) (E : ε → Prop) : Prop :=
  match x with
  | .ok a => Q a
  | .error e => E e

namespace Ends

variable {Q Q' : α → Prop} {E E' : ε → Prop} {x : Except ε α}

theorem ok {a : α} (h : Q a) : Ends (.ok a) Q E := h

theorem error {e : ε} (h : E e) : Ends (.error e) Q E := h

theorem of_ok {a : α} (h : Ends x Q E) (hx : x = .ok a) : Q a := by subst hx; exact h

theorem of_error {e : ε} (h : Ends x Q E) (hx : x = .error e) : E e := by subst hx; exact h

/-- From the outcomes themselves. -/
theorem intro (hok : ∀ a, x = .ok a → Q a) (herr : ∀ e, x = .error e → E e) : Ends x Q E := by
  cases x with
  | ok a => exact hok a rfl
  | error e => exact herr e rfl

theorem mono (h : Ends x Q E) (hQ : ∀ a, Q a → Q' a) (hE : ∀ e, E e → E' e) : Ends x Q' E' :=
  .intro (fun a hx => hQ a (h.of_ok hx)) fun e hx => hE e (h.of_error hx)

theorem bind {f : α → Except ε β} {R : β → Prop} (hx : Ends x Q E) (hf : ∀ a, Q a → Ends (f a) R E) :
    Ends (x >>= f) R E := by
  cases x with
  | ok a => exact hf a hx
  | error e => exact hx

/-- The loop rule: every turn keeps the invariant. -/
theorem foldlM {f : α → β → Except ε α} {l : List β} (h : ∀ b ∈ l, ∀ a, Q a → Ends (f a b) Q E) {a : α} (ha : Q a) :
    Ends (l.foldlM f a) Q E := by
  induction l generalizing a with
  | nil => exact ha
  | cons b l ih =>
    rw [List.foldlM_cons]
    exact (h b List.mem_cons_self a ha).bind fun _ ha' => ih (fun c hc => h c (List.mem_cons_of_mem _ hc)) ha'

end Ends

/-! ## With a state -/

abbrev Comp (σ ε α : Type) := ExceptT ε (StateM σ) α

namespace Comp

/-- Run from a state. -/
def run (x : Comp σ ε α) (s : σ) : Except ε α × σ := x s

/-- An outcome that is known already. -/
def ofExcept : Except ε α → Comp σ ε α
  | .ok a => pure a
  | .error e => throw e

/-- A step of the state. -/
def step (f : σ → σ) : Comp σ ε Unit := modify f

theorem run_bind (x : Comp σ ε α) (f : α → Comp σ ε β) (s : σ) :
    run (x >>= f) s =
      match x.run s with
      | (.ok a, s') => (f a).run s'
      | (.error e, s') => (.error e, s') := by
  simp only [run, Bind.bind, ExceptT.bind, ExceptT.mk, StateT.bind]
  cases x s with
  | mk r s' => cases r <;> rfl

end Comp

def Triple (P : σ → Prop) (x : Comp σ ε α) (Q : α → σ → Prop) (E : ε → σ → Prop) : Prop :=
  ∀ s, P s → Ends (x.run s).1 (fun a => Q a (x.run s).2) fun e => E e (x.run s).2

namespace Triple

variable {P P' : σ → Prop} {Q Q' : α → σ → Prop} {E E' : ε → σ → Prop} {x : Comp σ ε α}

theorem pure {a : α} (h : ∀ s, P s → Q a s) : Triple P (Pure.pure a : Comp σ ε α) Q E := fun s hs => h s hs

theorem throw {e : ε} (h : ∀ s, P s → E e s) : Triple P (MonadExcept.throw e : Comp σ ε α) Q E := fun s hs => h s hs

theorem step {f : σ → σ} {R : Unit → σ → Prop} (h : ∀ s, P s → R () (f s)) :
    Triple P (Comp.step f : Comp σ ε Unit) R E := fun s hs => h s hs

theorem ofExcept {r : Except ε α} {V : α → Prop} {F : ε → Prop} (hr : Ends r V F) (hok : ∀ a s, V a → P s → Q a s)
    (herr : ∀ e s, F e → P s → E e s) : Triple P (Comp.ofExcept r) Q E := by
  cases r with
  | ok a => exact pure fun s hs => hok a s hr hs
  | error e => exact throw fun s hs => herr e s hr hs

theorem bind {f : α → Comp σ ε β} {R : β → σ → Prop} (hx : Triple P x Q E) (hf : ∀ a, Triple (Q a) (f a) R E) :
    Triple P (x >>= f) R E := by
  intro s hs
  have h1 := hx s hs
  rw [Comp.run_bind]
  cases hx' : x.run s with
  | mk r s' =>
    rw [hx'] at h1
    cases r with
    | ok a => exact hf a s' h1
    | error e => exact h1

theorem mono (h : Triple P x Q E) (hP : ∀ s, P' s → P s) (hQ : ∀ a s, Q a s → Q' a s)
    (hE : ∀ e s, E e s → E' e s) : Triple P' x Q' E' :=
  fun s hs => (h s (hP s hs)).mono (fun a => hQ a _) fun e => hE e _

/-- The loop rule: every turn keeps the invariant. -/
theorem forM {l : List β} {f : β → Comp σ ε Unit} (h : ∀ b ∈ l, Triple P (f b) (fun _ => P) E) :
    Triple P (l.forM f) (fun _ => P) E := by
  induction l with
  | nil => exact pure fun _ hs => hs
  | cons b l ih => exact bind (h b List.mem_cons_self) fun _ => ih fun c hc => h c (List.mem_cons_of_mem _ hc)

/-- What one turn establishes and the others keep. -/
theorem forM_mem {l : List β} {f : β → Comp σ ε Unit} {R : σ → Prop} {b : β} (hb : b ∈ l)
    (hbefore : ∀ c ∈ l, Triple P (f c) (fun _ => P) E) (h : Triple P (f b) (fun _ => R) E)
    (hafter : ∀ c ∈ l, Triple R (f c) (fun _ => R) E) : Triple P (l.forM f) (fun _ => R) E := by
  induction l with
  | nil => cases hb
  | cons c l ih =>
    rcases List.mem_cons.mp hb with rfl | hb
    · exact bind h fun _ => forM fun d hd => hafter d (List.mem_cons_of_mem _ hd)
    · exact bind (hbefore c List.mem_cons_self) fun _ =>
        ih hb (fun d hd => hbefore d (List.mem_cons_of_mem _ hd)) fun d hd => hafter d (List.mem_cons_of_mem _ hd)

/-- Nothing is said. -/
theorem true : Triple (fun _ => True) x (fun _ _ => True) fun _ _ => True :=
  fun _ _ => .intro (fun _ _ => trivial) fun _ _ => trivial

end Triple

/-! ## Loops that a measure ends -/

variable {τ : Type}

/-- Every turn that goes on brings the loop closer to its end. -/
def Nearer (body : τ → Comp σ ε (ForInStep τ)) (measure : τ → Nat) : Prop :=
  ∀ t, Triple (fun _ => True) (body t) (fun r _ => ∀ t', r = .yield t' → measure t' < measure t) fun _ _ => True

/-- The outcome of a loop from a state. -/
def Comp.loopfrom (body : τ → Comp σ ε (ForInStep τ)) (measure : τ → Nat) (h : Nearer body measure) (t : τ) (s : σ) :
    Except ε τ × σ :=
  match _hb : (body t).run s with
  | (.ok (.done t'), s') => (.ok t', s')
  | (.ok (.yield t'), s') => loopfrom body measure h t' s'
  | (.error e, s') => (.error e, s')
termination_by measure t
decreasing_by
  have hok := h t s trivial
  rw [_hb] at hok
  exact hok t' rfl

def Comp.loop (body : τ → Comp σ ε (ForInStep τ)) (measure : τ → Nat) (h : Nearer body measure) (t : τ) :
    Comp σ ε τ := loopfrom body measure h t

section

variable {body : τ → Comp σ ε (ForInStep τ)} {measure : τ → Nat} {h : Nearer body measure} {t t' : τ} {s s' : σ}

theorem Comp.loop_done (hb : (body t).run s = (.ok (.done t'), s')) :
    (loop body measure h t).run s = (.ok t', s') := by
  show loopfrom body measure h t s = _
  rw [loopfrom]
  split <;> simp_all

theorem Comp.loop_yield (hb : (body t).run s = (.ok (.yield t'), s')) :
    (loop body measure h t).run s = (loop body measure h t').run s' := by
  show loopfrom body measure h t s = loopfrom body measure h t' s'
  rw [loopfrom]
  split <;> simp_all

theorem Comp.loop_error {e : ε} (hb : (body t).run s = (.error e, s')) :
    (loop body measure h t).run s = (.error e, s') := by
  show loopfrom body measure h t s = _
  rw [loopfrom]
  split <;> simp_all

/-- A loop is its first turn and what follows. -/
theorem Comp.loop_eq : loop body measure h t = (body t >>= fun r =>
    match r with
    | .yield t' => loop body measure h t'
    | .done t' => pure t') := by
  funext s
  show (loop body measure h t).run s = run _ s
  rw [run_bind]
  cases hb : (body t).run s with
  | mk r s' =>
    cases r with
    | error e => exact loop_error hb
    | ok r =>
      cases r with
      | yield t' => exact loop_yield hb
      | done t' => exact loop_done hb

end

/-- The loop rule: every turn keeps the invariant, and the last one gives `Q`. -/
theorem Triple.loop {body : τ → Comp σ ε (ForInStep τ)} {measure : τ → Nat} {h : Nearer body measure}
    {I : τ → σ → Prop} {Q : τ → σ → Prop} {E : ε → σ → Prop}
    (hturn : ∀ t, Triple (I t) (body t)
      (fun r s => match r with | .yield t' => I t' s | .done t' => Q t' s) E) (t : τ) :
    Triple (I t) (Comp.loop body measure h t) Q E := by
  induction hm : measure t using Nat.strongRecOn generalizing t with
  | _ m ih =>
    subst hm
    intro s hs
    have hbody := hturn t s hs
    have hnearer := h t s trivial
    cases hb : (body t).run s with
    | mk r s' =>
      rw [hb] at hbody hnearer
      cases r with
      | error e => rw [Comp.loop_error hb]; exact hbody
      | ok r =>
        cases r with
        | done t' => rw [Comp.loop_done hb]; exact hbody
        | yield t' => rw [Comp.loop_yield hb]; exact ih _ (hnearer t' rfl) t' rfl s' hbody

end GnuWindows.Lib.Hoare
