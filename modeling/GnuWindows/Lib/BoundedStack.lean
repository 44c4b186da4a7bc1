/-
  GnuWindows.Lib.BoundedStack — machines that work off a stack of at most `cap` frames.

  A frame is measured by what it still has to read (`size`). One step ends the top
  frame (`pop`), or reads some of it (`shrink`), or reads some of it and pushes frames
  over it while the stack stays within `cap` (`push`). The pushed frames may be larger
  than the one that was read, so no sum of sizes goes down.

  Proved:
  - `move_wf`: such a machine always ends, whatever sizes it pushes; so `run` is total.
  - `run_inv`, `states_inv`: what one step keeps, the whole run keeps.
  - `run_image`: a machine that simulates another gives the image of its result.
  - `run_then`: so does one that goes on from where the other stops.
  - `run_related`: machines that take related steps have related results.
  - `run_of_runN` / `runN_total`: the fuelled run `runN`, which evaluates, gives the
    same result as `run`, and some fuel always suffices; `states_of_lastN`, the state that
    it stops in.
  - `runN_weight`: when no pushed frame is larger than `L`, the weight of the stack (its
    frames as the digits of a number in base `L + 1`) is enough fuel.
-/
import Mathlib.Algebra.Group.Nat.Defs
import Mathlib.Data.List.Chain
import Mathlib.Tactic.Common

namespace GnuWindows.Lib.BoundedStack

/-! ## Moves -/

/-- One step's effect on the sizes of the frames, top first: the new stack, then the
    old one. Pushed frames have sizes in `P`. -/
inductive Move (cap : Nat) (P : Nat → Prop) : List Nat → List Nat → Prop
  | pop (a : Nat) (l : List Nat) : Move cap P l (a :: l)
  | shrink {a b : Nat} (l : List Nat) : b < a → Move cap P (b :: l) (a :: l)
  | push {a b : Nat} (new l : List Nat) : b < a → (∀ x ∈ new, P x) → (new ++ b :: l).length ≤ cap →
      Move cap P (new ++ b :: l) (a :: l)

variable {cap : Nat} {P : Nat → Prop}

theorem Move.length_le {l l' : List Nat} (h : Move cap P l' l) (hl : l.length ≤ cap) : l'.length ≤ cap := by
  cases h with
  | pop a l => exact Nat.le_of_succ_le hl
  | shrink l hb => exact hl
  | push new l hb hn hc => exact hc

/-- Over an accessible stack, every frame is accessible: by induction on how many frames
    still fit over `l`, then on the frame's size. -/
theorem acc_cons : ∀ (k : Nat) (l : List Nat), cap ≤ l.length + k → Acc (Move cap P) l →
    ∀ a, Acc (Move cap P) (a :: l) := by
  intro k
  induction k with
  | zero =>
    intro l hk hl a
    induction a using Nat.strongRecOn with
    | _ a iha =>
      apply Acc.intro
      intro y hy
      cases hy with
      | pop => exact hl
      | shrink _ hb => exact iha _ hb
      | push new _ _ _ hc => simp only [List.length_append, List.length_cons] at hc; omega
  | succ k ih =>
    intro l hk hl a
    induction a using Nat.strongRecOn with
    | _ a iha =>
      apply Acc.intro
      intro y hy
      cases hy with
      | pop => exact hl
      | shrink _ hb => exact iha _ hb
      | push new _ hb _ _ =>
        have base := iha _ hb
        -- each pushed frame goes over a stack longer than `l`
        induction new with
        | nil => exact base
        | cons x new ihn =>
          refine ih _ ?_ (ihn (fun y hy => ‹∀ y ∈ x :: new, P y› y (List.mem_cons_of_mem _ hy)) ?_) x
          · simp only [List.length_append, List.length_cons]; omega
          · have h := ‹(x :: new ++ _ :: l).length ≤ cap›
            simp only [List.cons_append, List.length_cons] at h; omega

theorem move_wf (cap : Nat) (P : Nat → Prop) : WellFounded (Move cap P) := by
  refine ⟨?_⟩
  intro l
  induction l with
  | nil => exact Acc.intro _ fun y hy => by cases hy
  | cons a l ih => exact acc_cons cap l (by omega) ih a

/-! ## Machines -/

inductive Next (σ ρ : Type) where
  | go (s : σ)
  | stop (r : ρ)

theorem Next.go_ne_stop {σ ρ : Type} (s : σ) (r : ρ) : Next.go s ≠ .stop r := by
  intro h
  cases h

def Next.map {σ ρ σ' ρ' : Type} (f : σ → σ') (g : ρ → ρ') : Next σ ρ → Next σ' ρ'
  | .go s => .go (f s)
  | .stop r => .stop (g r)

/-- Both go on, in related states, or both stop, with related results. -/
def Next.Related {σ ρ σ' ρ' : Type} (R : σ → σ' → Prop) (Q : ρ → ρ' → Prop) : Next σ ρ → Next σ' ρ' → Prop
  | .go s, .go s' => R s s'
  | .stop r, .stop r' => Q r r'
  | .go _, .stop _ => False
  | .stop _, .go _ => False

structure Machine (cap : Nat) (P : Nat → Prop) (σ ρ : Type) where
  step : σ → Next σ ρ
  /-- What each frame still has to read, top first. -/
  size : σ → List Nat
  moves : ∀ {s s' : σ}, step s = .go s' → Move cap P (size s') (size s)

namespace Machine

variable {σ ρ : Type} (M : Machine cap P σ ρ)

def run (s : σ) : ρ :=
  match _h : M.step s with
  | .go s' => run s'
  | .stop r => r
termination_by (move_wf cap P).wrap (M.size s)
decreasing_by exact M.moves _h

/-- At most `n` steps: `none` when they do not suffice. -/
def runN : Nat → σ → Option ρ
  | 0, _ => none
  | n + 1, s =>
    match M.step s with
    | .go s' => runN n s'
    | .stop r => some r

theorem run_go {s s' : σ} (h : M.step s = .go s') : M.run s = M.run s' := by
  rw [run]; split <;> simp_all

theorem run_stop {s : σ} {r : ρ} (h : M.step s = .stop r) : M.run s = r := by
  rw [run]; split <;> simp_all

theorem runN_go {n : Nat} {s s' : σ} (h : M.step s = .go s') : M.runN (n + 1) s = M.runN n s' := by
  simp [runN, h]

theorem runN_stop {n : Nat} {s : σ} {r : ρ} (h : M.step s = .stop r) : M.runN (n + 1) s = some r := by
  simp [runN, h]

/-- Induction along a run: a fact about states that holds where the machine stops, and of
    a state when it holds of the next one, holds of every state. -/
theorem run_induction {C : σ → Prop} (hstop : ∀ s r, M.step s = .stop r → C s)
    (hgo : ∀ s s', M.step s = .go s' → C s' → C s) (s : σ) : C s := by
  induction hl : M.size s using (move_wf cap P).induction generalizing s with
  | _ l ih =>
    subst hl
    cases h : M.step s with
    | stop r => exact hstop s r h
    | go s' => exact hgo s s' h (ih _ (M.moves h) s' rfl)

/-- The invariant rule: `I` holds at the start and is kept by every step, and a step that
    stops in a state with `I` gives a result with `Q`. -/
theorem run_inv {I : σ → Prop} {Q : ρ → Prop} (hgo : ∀ s s', I s → M.step s = .go s' → I s')
    (hstop : ∀ s r, I s → M.step s = .stop r → Q r) (s : σ) : I s → Q (M.run s) := by
  refine M.run_induction (C := fun s => I s → Q (M.run s)) ?_ ?_ s
  · intro s r h hI; rw [M.run_stop h]; exact hstop s r hI h
  · intro s s' h ih hI; rw [M.run_go h]; exact ih (hgo s s' hI h)

/-- States with the same next step. -/
theorem run_congr {s s' : σ} (h : M.step s = M.step s') : M.run s = M.run s' := by
  cases hs : M.step s with
  | go t => exact (M.run_go hs).trans (M.run_go (h.symm.trans hs)).symm
  | stop r => exact (M.run_stop hs).trans (M.run_stop (h.symm.trans hs)).symm

/-- The sequence rule: another machine takes the same steps over images of the states, and
    has a result of its own from where this one stops. -/
theorem run_then {cap' : Nat} {P' : Nat → Prop} {σ' ρ' : Type} (N : Machine cap' P' σ' ρ') {I : σ → Prop}
    (f : σ → σ') (g : ρ → ρ') (hinv : ∀ s s', I s → M.step s = .go s' → I s')
    (hgo : ∀ s s', I s → M.step s = .go s' → N.step (f s) = .go (f s'))
    (hstop : ∀ s r, I s → M.step s = .stop r → N.run (f s) = g r) (s : σ) : I s → N.run (f s) = g (M.run s) := by
  refine M.run_induction (C := fun s => I s → N.run (f s) = g (M.run s)) ?_ ?_ s
  · intro s r h hI
    rw [M.run_stop h, hstop s r hI h]
  · intro s s' h ih hI
    rw [M.run_go h, N.run_go (hgo s s' hI h)]
    exact ih (hinv s s' hI h)

/-- The simulation rule: a machine that takes the same steps, over images of the states,
    stops with the image of the result. -/
theorem run_image {cap' : Nat} {P' : Nat → Prop} {σ' ρ' : Type} (N : Machine cap' P' σ' ρ') {I : σ → Prop}
    (f : σ → σ') (g : ρ → ρ') (hinv : ∀ s s', I s → M.step s = .go s' → I s')
    (himage : ∀ s, I s → N.step (f s) = (M.step s).map f g) (s : σ) : I s → N.run (f s) = g (M.run s) := by
  refine M.run_then N f g hinv (fun s s' hI h => ?_) (fun s r hI h => N.run_stop ?_) s
  · rw [himage s hI, h]
    rfl
  · rw [himage s hI, h]
    rfl

/-- The rule for two machines that take related steps from related states: their results
    are related. -/
theorem run_related {cap' : Nat} {P' : Nat → Prop} {σ' ρ' : Type} (N : Machine cap' P' σ' ρ') {R : σ → σ' → Prop}
    {Q : ρ → ρ' → Prop} (h : ∀ s t, R s t → (M.step s).Related R Q (N.step t)) (s : σ) :
    ∀ t, R s t → Q (M.run s) (N.run t) := by
  refine M.run_induction (C := fun s => ∀ t, R s t → Q (M.run s) (N.run t)) ?_ ?_ s
  · intro s r hs t hst
    have hrel := h s t hst
    rw [hs] at hrel
    cases ht : N.step t with
    | go t' => rw [ht] at hrel; exact hrel.elim
    | stop r' =>
      rw [ht] at hrel
      rw [M.run_stop hs, N.run_stop ht]
      exact hrel
  · intro s s' hs ih t hst
    have hrel := h s t hst
    rw [hs] at hrel
    cases ht : N.step t with
    | go t' =>
      rw [ht] at hrel
      rw [M.run_go hs, N.run_go ht]
      exact ih t' hrel
    | stop r' => rw [ht] at hrel; exact hrel.elim

theorem run_of_runN {n : Nat} {s : σ} {r : ρ} (h : M.runN n s = some r) : M.run s = r := by
  induction n generalizing s with
  | zero => simp [runN] at h
  | succ n ih =>
    cases hs : M.step s with
    | go s' => rw [M.run_go hs]; rw [M.runN_go hs] at h; exact ih h
    | stop r' => rw [M.run_stop hs]; rw [M.runN_stop hs] at h; exact Option.some.inj h

/-- The states of a run, the one it stops in last. -/
def states (s : σ) : List σ :=
  match _h : M.step s with
  | .go s' => s :: states s'
  | .stop _ => [s]
termination_by (move_wf cap P).wrap (M.size s)
decreasing_by exact M.moves _h

theorem states_go {s s' : σ} (h : M.step s = .go s') : M.states s = s :: M.states s' := by
  rw [states]; split <;> simp_all

theorem states_stop {s : σ} {r : ρ} (h : M.step s = .stop r) : M.states s = [s] := by
  rw [states]; split <;> simp_all

/-- What one step keeps holds in every state of a run. -/
theorem states_inv {I : σ → Prop} (hgo : ∀ s s', I s → M.step s = .go s' → I s') (s : σ) :
    I s → ∀ x ∈ M.states s, I x := by
  refine M.run_induction (C := fun s => I s → ∀ x ∈ M.states s, I x) ?_ ?_ s
  · intro s r h hI x hx
    rw [M.states_stop h, List.mem_singleton] at hx
    exact hx ▸ hI
  · intro s s' h ih hI x hx
    rw [M.states_go h] at hx
    rcases List.mem_cons.mp hx with rfl | hx
    · exact hI
    · exact ih (hgo s s' hI h) x hx

/-! ### The states as a list -/

theorem states_cons (s : σ) : ∃ l, M.states s = s :: l := by
  cases h : M.step s with
  | go s' => exact ⟨_, M.states_go h⟩
  | stop r => exact ⟨_, M.states_stop h⟩

/-- Each state is a step after the one before it. -/
theorem states_isChain (s : σ) : (M.states s).IsChain fun x y => M.step x = .go y := by
  refine M.run_induction (C := fun s => (M.states s).IsChain fun x y => M.step x = .go y) ?_ ?_ s
  · intro s r h
    rw [M.states_stop h]
    exact List.isChain_singleton s
  · intro s s' h ih
    obtain ⟨l, hl⟩ := M.states_cons s'
    rw [M.states_go h]
    rw [hl] at ih ⊢
    exact List.isChain_cons_cons.mpr ⟨h, ih⟩

/-- The last state is the one a run stops in. -/
theorem states_getLast (s : σ) : ∃ x, (M.states s).getLast? = some x ∧ M.step x = .stop (M.run s) := by
  refine M.run_induction (C := fun s => ∃ x, (M.states s).getLast? = some x ∧ M.step x = .stop (M.run s)) ?_ ?_ s
  · intro s r h
    exact ⟨s, by rw [M.states_stop h]; rfl, by rw [h, M.run_stop h]⟩
  · intro s s' h hx
    obtain ⟨x, hx, hstop⟩ := hx
    refine ⟨x, ?_, by rw [hstop, M.run_go h]⟩
    rw [M.states_go h, List.getLast?_cons, hx]
    rfl

/-- The state a run of at most `n` steps stops in, and its result. -/
def lastN : Nat → σ → Option (σ × ρ)
  | 0, _ => none
  | n + 1, s =>
    match M.step s with
    | .go s' => lastN n s'
    | .stop r => some (s, r)

theorem states_of_lastN {n : Nat} {s x : σ} {r : ρ} (h : M.lastN n s = some (x, r)) :
    (M.states s).getLast? = some x ∧ M.run s = r := by
  induction n generalizing s with
  | zero => cases h
  | succ n ih =>
    rw [lastN] at h
    cases hs : M.step s with
    | go s' =>
      rw [hs] at h
      obtain ⟨hx, hrun⟩ := ih h
      refine ⟨?_, by rw [M.run_go hs, hrun]⟩
      rw [M.states_go hs, List.getLast?_cons, hx]
      rfl
    | stop r' =>
      rw [hs] at h
      cases h
      exact ⟨by rw [M.states_stop hs]; rfl, M.run_stop hs⟩

/-- A run stops in one of its states. -/
theorem states_last (s : σ) : ∃ x ∈ M.states s, M.step x = .stop (M.run s) := by
  obtain ⟨x, hx, hstop⟩ := M.states_getLast s
  exact ⟨x, List.mem_of_getLast? hx, hstop⟩

/-- It stops with the result of that state. -/
theorem run_of_stop {s x : σ} {r : ρ} (hx : x ∈ M.states s) (h : M.step x = .stop r) : M.run s = r := by
  revert hx
  refine M.run_induction (C := fun s => x ∈ M.states s → M.run s = r) ?_ ?_ s
  · intro s r' h' hx
    rw [M.states_stop h', List.mem_singleton] at hx
    rw [hx] at h
    exact M.run_stop h
  · intro s s' h' ih hx
    rw [M.states_go h'] at hx
    rcases List.mem_cons.mp hx with rfl | hx
    · rw [h] at h'; cases h'
    · rw [M.run_go h', ih hx]

theorem runN_total (s : σ) : ∃ n, M.runN n s = some (M.run s) := by
  refine M.run_induction (C := fun s => ∃ n, M.runN n s = some (M.run s)) ?_ ?_ s
  · intro s r h; exact ⟨1, by rw [M.runN_stop h, M.run_stop h]⟩
  · intro s s' h hrun; obtain ⟨n, hn⟩ := hrun; exact ⟨n + 1, by rw [M.runN_go h, M.run_go h, hn]⟩

end Machine

/-- A loop without a stack, which every turn brings closer to its end. -/
def Machine.loop {σ ρ : Type} (step : σ → Next σ ρ) (measure : σ → Nat)
    (h : ∀ {s s' : σ}, step s = .go s' → measure s' < measure s) : Machine 1 (fun _ => True) σ ρ where
  step := step
  size s := [measure s]
  moves hs := .shrink [] (h hs)

/-! ## Enough fuel when pushed frames are bounded -/

/-- The frames as digits in base `B`, the bottom one first. -/
def weight (cap B : Nat) : List Nat → Nat
  | [] => 0
  | a :: l => a * B ^ (cap - l.length) + weight cap B l

/-- Frames of size at most `L` pushed over `l` weigh less than one unit of the frame
    below them. -/
theorem weight_append (cap L : Nat) (new l : List Nat) (hn : ∀ x ∈ new, x ≤ L) (hc : (new ++ l).length ≤ cap) :
    weight cap (L + 1) (new ++ l) + (L + 1) ^ (cap + 1 - (new ++ l).length) ≤
      weight cap (L + 1) l + (L + 1) ^ (cap + 1 - l.length) := by
  induction new with
  | nil => simp
  | cons x new ih =>
    simp only [List.cons_append, List.length_cons] at hc ⊢
    have ih := ih (fun y hy => hn y (List.mem_cons_of_mem _ hy)) (by omega)
    have hx : x ≤ L := hn x List.mem_cons_self
    have e1 : cap + 1 - ((new ++ l).length + 1) = cap - (new ++ l).length := by omega
    have e2 : cap + 1 - (new ++ l).length = (cap - (new ++ l).length) + 1 := by omega
    rw [e2, Nat.pow_succ] at ih
    simp only [weight, e1]
    have : x * (L + 1) ^ (cap - (new ++ l).length) + (L + 1) ^ (cap - (new ++ l).length) ≤
        (L + 1) ^ (cap - (new ++ l).length) * (L + 1) := by
      calc x * (L + 1) ^ (cap - (new ++ l).length) + (L + 1) ^ (cap - (new ++ l).length)
          = (L + 1) ^ (cap - (new ++ l).length) * (x + 1) := by rw [Nat.mul_add, Nat.mul_comm, Nat.mul_one]
        _ ≤ (L + 1) ^ (cap - (new ++ l).length) * (L + 1) := Nat.mul_le_mul_left _ (by omega)
    omega

/-- Every move lowers the weight, when frames hold something to read as long as they are
    on the stack. -/
theorem weight_move {L : Nat} {l l' : List Nat} (h : Move cap (· ≤ L) l' l) (hpos : ∀ a ∈ l, 0 < a) :
    weight cap (L + 1) l' < weight cap (L + 1) l := by
  have hp : ∀ n, 0 < (L + 1) ^ n := fun n => Nat.pow_pos (by omega)
  cases h with
  | pop a l' =>
    have ha := hpos a List.mem_cons_self
    have := Nat.mul_le_mul_right ((L + 1) ^ (cap - l'.length)) ha
    have := hp (cap - l'.length)
    simp only [weight]; omega
  | @shrink a b l hb =>
    have := Nat.mul_le_mul_right ((L + 1) ^ (cap - l.length)) hb
    have := hp (cap - l.length)
    simp only [weight, Nat.succ_mul] at *; omega
  | @push a b new l hb hn hc =>
    have h1 := weight_append cap L new (b :: l) hn hc
    have h2 := hp (cap + 1 - (new ++ b :: l).length)
    have h3 := Nat.mul_le_mul_right ((L + 1) ^ (cap - l.length)) hb
    simp only [List.length_cons, weight, Nat.succ_mul, Nat.add_sub_add_right] at *; omega

/-- The weight of the stack is enough fuel. -/
theorem Machine.runN_weight {σ ρ : Type} {L : Nat} (M : Machine cap (· ≤ L) σ ρ)
    (hpos : ∀ s, ∀ a ∈ M.size s, 0 < a) (s : σ) :
    M.runN (weight cap (L + 1) (M.size s) + 1) s = some (M.run s) := by
  suffices h : ∀ n s, weight cap (L + 1) (M.size s) < n → M.runN n s = some (M.run s) from h _ s (by omega)
  intro n
  induction n with
  | zero => intro s h; omega
  | succ n ih =>
    intro s h
    cases hs : M.step s with
    | stop r => rw [M.runN_stop hs, M.run_stop hs]
    | go s' =>
      have := weight_move (M.moves hs) (hpos s)
      rw [M.runN_go hs, M.run_go hs]
      exact ih s' (by omega)

end GnuWindows.Lib.BoundedStack
