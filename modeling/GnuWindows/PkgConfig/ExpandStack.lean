/-
  GnuWindows.PkgConfig.ExpandStack — the loop of `expand` on its array of 128 slices.

  `Slots` is the array with the index of the top slice, -1 when there is none. A slice that
  was taken stays in its slot until the next push. An access outside of the array ends the
  loop without a result: C gives it no meaning. The slices up to the top are the stack of
  `expandStep`.

  Proved:
  - `slotturn_agrees`: a turn on the array is one on the stack, and no access leaves the
    array. The `$$` case pushes without a look at the room, into the slot it has emptied.
  - `expand_terminates`: so the loop ends, for all environments and strings, with all of
    the output or with one of its two messages.
-/
import GnuWindows.PkgConfig.Expand

namespace GnuWindows.PkgConfig

open GnuWindows.Lib.BoundedStack

/-! ## The array -/

structure Slots where
  stack : List S8
  size : stack.length = 128
  top : Int
  out : S8

/-- `stack[i]`. -/
def readslot (stack : List S8) (i : Int) : Option S8 := if i < 0 then none else stack[i.toNat]?

/-- `stack[i] = s`. -/
def Slots.write (st : Slots) (i : Int) (s : S8) : Option Slots :=
  if 0 ≤ i ∧ i.toNat < st.stack.length then
    some { st with stack := st.stack.set i.toNat s, size := (List.length_set ..).trans st.size, top := i }
  else none

/-- `top--`. -/
def Slots.pop (st : Slots) : Slots := { st with top := st.top - 1 }

variable (err : Errbuf) (global : Env) (p : Pkg)

/-- Push what follows a reference, and its value over it. -/
def pushref (st : Slots) (head t : S8) : Next Slots (Option Expanded) :=
  match st.write (st.top + 1) (reftail t) with
  | none => .stop none
  | some st =>
    match lookup global p.env (refname t) with
    | none => .stop (some ⟨st.out ++ head, some (failundefined err p (refname t))⟩)
    | some value =>
      match st.write (st.top + 1) value with
      | none => .stop none
      | some st => .go { st with out := st.out ++ head }

/-- The slice `s` that was taken off the stack. -/
def sliceturn (st : Slots) (s : S8) : Next Slots (Option Expanded) :=
  match finddollar s with
  | none => .go { st with out := st.out ++ s }
  | some (head, true, t) =>
    if 128 - 2 ≤ st.top then .stop (some ⟨st.out, some (failrecursion err p)⟩)
    else pushref err global p st head t
  | some (head, false, t) =>
    match st.write (st.top + 1) t with
    | none => .stop none
    | some st => .go { st with out := st.out ++ head ++ [0x24] }

/-- One turn of the outer loop. -/
def slotturn (st : Slots) : Next Slots (Option Expanded) :=
  if st.top < 0 then .stop (some ⟨st.out, none⟩)
  else
    match readslot st.stack st.top with
    | none => .stop none
    | some s => sliceturn err global p st.pop s

/-- The array holds anything at first. -/
def newslots (stack : Vector S8 128) (str : S8) : Slots where
  stack := stack.toList.set 0 str
  size := (List.length_set ..).trans (Vector.length_toList ..)
  top := 0
  out := []

/-! ## The slices up to the top -/

/-- The pending slices, top first. -/
def Slots.pending (st : Slots) : List S8 := (st.stack.take (st.top + 1).toNat).reverse

def Slots.image (st : Slots) : ExpandState := ⟨st.pending, st.out⟩

/-- The index of the top slice, or -1. -/
def Slots.Within (st : Slots) : Prop := -1 ≤ st.top ∧ st.top ≤ 127

theorem newslots_pending (stack : Vector S8 128) (str : S8) : (newslots stack str).pending = [str] := by
  have hsize := (newslots stack str).size
  show ((stack.toList.set 0 str).take 1).reverse = [str]
  cases h : stack.toList with
  | nil => simp [newslots, h] at hsize
  | cons s rest => rfl

theorem length_pending {st : Slots} (h : st.Within) : (st.pending.length : Int) = st.top + 1 := by
  obtain ⟨h1, h2⟩ := h
  have := st.size
  rw [Slots.pending, List.length_reverse, List.length_take]
  omega

theorem pending_nil {st : Slots} (h : st.top < 0) : st.pending = [] := by
  rw [Slots.pending, Int.toNat_eq_zero.mpr (by omega)]
  rfl

/-- The top slice is there, over the others. -/
theorem readslot_top {st : Slots} (h : st.Within) (htop : ¬ st.top < 0) :
    ∃ s, readslot st.stack st.top = some s ∧ st.pending = s :: st.pop.pending := by
  obtain ⟨-, h2⟩ := h
  have hsize := st.size
  have hlt : st.top.toNat < st.stack.length := by omega
  have hnext : (st.top + 1).toNat = st.top.toNat + 1 := by omega
  have hlast : (st.pop.top + 1).toNat = st.top.toNat := by
    show (st.top - 1 + 1).toNat = st.top.toNat
    omega
  refine ⟨st.stack[st.top.toNat], ?_, ?_⟩
  · rw [readslot, if_neg htop, List.getElem?_eq_getElem hlt]
  · rw [Slots.pending, Slots.pending, hnext, hlast, List.take_succ_eq_append_getElem hlt, List.reverse_append]
    rfl

/-- A push goes into the array while there is room over the top. -/
theorem write_push {st : Slots} (h : -1 ≤ st.top ∧ st.top < 127) (s : S8) :
    ∃ st', st.write (st.top + 1) s = some st' ∧ st'.pending = s :: st.pending ∧ st'.top = st.top + 1 ∧
      st'.out = st.out := by
  obtain ⟨h1, h2⟩ := h
  have hsize := st.size
  have hlt : (st.top + 1).toNat < st.stack.length := by omega
  have hnext : (st.top + 1 + 1).toNat = (st.top + 1).toNat + 1 := by omega
  refine ⟨_, if_pos ⟨by omega, hlt⟩, ?_, rfl, rfl⟩
  rw [Slots.pending, Slots.pending]
  simp only
  rw [hnext, List.take_succ_eq_append_getElem (by rw [List.length_set]; exact hlt), List.getElem_set_self,
    List.take_set_of_le (Nat.le_refl _), List.reverse_append]
  rfl

/-! ## The turns -/

/-- What a turn is on the array and on the slices up to the top. -/
def Agrees (turn : Next Slots (Option Expanded)) (step : Next ExpandState Expanded) : Prop :=
  ∃ next : Next Slots Expanded, turn = next.map id some ∧ step = next.map Slots.image id ∧
    ∀ st, next = .go st → st.Within

theorem Agrees.stop (r : Expanded) : Agrees (.stop (some r)) (.stop r) := ⟨.stop r, rfl, rfl, fun _ h => by cases h⟩

theorem Agrees.go {st : Slots} {st' : ExpandState} (h : st.Within) (hi : st.image = st') : Agrees (.go st) (.go st') :=
  ⟨.go st, rfl, by rw [← hi]; rfl, fun _ he => by cases he; exact h⟩

/-- With room for two slices a reference is pushed. -/
theorem pushref_agrees {st : Slots} (h : -1 ≤ st.top ∧ st.top < 126) (head t : S8) :
    Agrees (pushref err global p st head t)
      (match lookup global p.env (refname t) with
      | none => .stop ⟨st.out ++ head, some (failundefined err p (refname t))⟩
      | some value => .go ⟨value :: reftail t :: st.pending, st.out ++ head⟩) := by
  obtain ⟨h1, h2⟩ := h
  have hroom : -1 ≤ st.top ∧ st.top < 127 := ⟨h1, by omega⟩
  obtain ⟨st₁, hw₁, hp₁, ht₁, ho₁⟩ := write_push hroom (reftail t)
  unfold pushref
  rw [hw₁]
  simp only
  cases lookup global p.env (refname t) with
  | none =>
    rw [ho₁]
    exact .stop _
  | some value =>
    have hroom₁ : -1 ≤ st₁.top ∧ st₁.top < 127 := ⟨by omega, by omega⟩
    obtain ⟨st₂, hw₂, hp₂, ht₂, ho₂⟩ := write_push hroom₁ value
    simp only [hw₂]
    refine .go (show -1 ≤ st₂.top ∧ st₂.top ≤ 127 by omega) ?_
    show (⟨st₂.pending, st₂.out ++ head⟩ : ExpandState) = _
    rw [hp₂, hp₁, ho₂, ho₁]

/-- Over `st` the slot of the slice that was taken is free again. -/
theorem sliceturn_agrees {st : Slots} (h : -1 ≤ st.top ∧ st.top ≤ 126) (s : S8) :
    Agrees (sliceturn err global p st s) (expandStep err global p ⟨s :: st.pending, st.out⟩) := by
  obtain ⟨h1, h2⟩ := h
  have hwithin : st.Within := ⟨h1, by omega⟩
  have hlen := length_pending hwithin
  unfold sliceturn expandStep
  simp only
  cases finddollar s with
  | none => exact .go (show -1 ≤ st.top ∧ st.top ≤ 127 by omega) rfl
  | some d =>
    obtain ⟨head, isref, t⟩ := d
    cases isref with
    | true =>
      simp only
      by_cases hroom : 127 ≤ st.pending.length
      · rw [if_pos hroom, if_pos (by omega)]
        exact .stop _
      · rw [if_neg hroom, if_neg (by omega)]
        exact pushref_agrees err global p ⟨h1, by omega⟩ head t
    | false =>
      have htop : -1 ≤ st.top ∧ st.top < 127 := ⟨h1, by omega⟩
      obtain ⟨st', hw, hp, ht, ho⟩ := write_push htop t
      simp only [hw]
      refine .go (show -1 ≤ st'.top ∧ st'.top ≤ 127 by omega) ?_
      show (⟨st'.pending, st'.out ++ head ++ [0x24]⟩ : ExpandState) = _
      rw [hp, ho]

/-- A turn on the array is the turn on the slices up to the top. -/
theorem slotturn_agrees {st : Slots} (h : st.Within) :
    Agrees (slotturn err global p st) (expandStep err global p st.image) := by
  unfold slotturn
  by_cases htop : st.top < 0
  · rw [if_pos htop, Slots.image, pending_nil htop]
    exact .stop _
  · obtain ⟨s, hread, hpending⟩ := readslot_top h htop
    rw [if_neg htop, hread, Slots.image, hpending]
    have hpop : -1 ≤ st.pop.top ∧ st.pop.top ≤ 126 := by
      have h2 := h.2
      show -1 ≤ st.top - 1 ∧ st.top - 1 ≤ 126
      omega
    exact sliceturn_agrees err global p hpop s

/-! ## The loop ends -/

/-- At most `n` turns: `none` when they do not suffice. -/
def slotloop : Nat → Slots → Option (Option Expanded)
  | 0, _ => none
  | n + 1, st =>
    match slotturn err global p st with
    | .go st' => slotloop n st'
    | .stop r => some r

/-- A state that the loop comes to. -/
inductive Slotrun (start : Slots) : Slots → Prop
  | start : Slotrun start start
  | turn {st st' : Slots} : Slotrun start st → slotturn err global p st = .go st' → Slotrun start st'

theorem slotturn_go {st st' : Slots} (h : st.Within) (hgo : slotturn err global p st = .go st') :
    st'.Within ∧ expandStep err global p st.image = .go st'.image := by
  obtain ⟨next, hturn, hstep, hwithin⟩ := slotturn_agrees err global p h
  rw [hgo] at hturn
  cases next with
  | stop r => cases hturn
  | go st'' =>
    cases hturn
    exact ⟨hwithin _ rfl, hstep⟩

theorem slotturn_stop {st : Slots} {r : Option Expanded} (h : st.Within) (hstop : slotturn err global p st = .stop r) :
    ∃ e, r = some e ∧ expandStep err global p st.image = .stop e := by
  obtain ⟨next, hturn, hstep, -⟩ := slotturn_agrees err global p h
  rw [hstop] at hturn
  cases next with
  | go st'' => cases hturn
  | stop e =>
    cases hturn
    exact ⟨e, rfl, hstep⟩

/-- As many turns as the stack takes, with its result. -/
theorem slotloop_runN {st : Slots} (h : st.Within) {n : Nat} {e : Expanded}
    (hrun : (expandMachine err global p).runN n st.image = some e) : slotloop err global p n st = some (some e) := by
  induction n generalizing st with
  | zero => cases hrun
  | succ n ih =>
    rw [slotloop]
    cases ht : slotturn err global p st with
    | go st' =>
      obtain ⟨hwithin, hstep⟩ := slotturn_go err global p h ht
      rw [(expandMachine err global p).runN_go hstep] at hrun
      exact ih hwithin hrun
    | stop r =>
      obtain ⟨e', rfl, hstep⟩ := slotturn_stop err global p h ht
      rw [(expandMachine err global p).runN_stop hstep] at hrun
      cases hrun
      rfl

theorem newslots_within (stack : Vector S8 128) (str : S8) : (newslots stack str).Within :=
  ⟨by show (-1 : Int) ≤ 0; decide, by show (0 : Int) ≤ 127; decide⟩

theorem slotrun_within {start st : Slots} (h : start.Within) (hrun : Slotrun err global p start st) : st.Within := by
  induction hrun with
  | start => exact h
  | turn _ hgo ih => exact (slotturn_go err global p ih hgo).1

/-- The two errors, or none. -/
theorem expandStep_fail {st : ExpandState} {e : Expanded} (h : expandStep err global p st = .stop e) :
    e.fail = none ∨ e.fail = some (failrecursion err p) ∨ ∃ name, e.fail = some (failundefined err p name) := by
  unfold expandStep at h
  split at h
  · cases h
    exact .inl rfl
  · split at h
    · cases h
    · split at h
      · cases h
        exact .inr (.inl rfl)
      · split at h
        · cases h
          exact .inr (.inr ⟨_, rfl⟩)
        · cases h
    · cases h

theorem expand_messages (str : S8) : (expand err global p str).fail = none ∨
    (expand err global p str).fail = some (failrecursion err p) ∨
    ∃ name, (expand err global p str).fail = some (failundefined err p name) := by
  rw [expand_run]
  obtain ⟨st, -, hstop⟩ := (expandMachine err global p).states_last ⟨[str], []⟩
  exact expandStep_fail err global p hstop

/-- For all environments, strings and contents of the array at first, the loop ends with
    `expand` after finitely many turns, so with all of the output or with one of its two
    errors. In every state on the way the index of the top slice is in the array, or -1
    when none is left; and no access is outside, or the loop would end without a result. -/
theorem expand_terminates (stack : Vector S8 128) (str : S8) :
    (∃ n, slotloop err global p n (newslots stack str) = some (some (expand err global p str))) ∧
    ((expand err global p str).fail = none ∨ (expand err global p str).fail = some (failrecursion err p) ∨
      ∃ name, (expand err global p str).fail = some (failundefined err p name)) ∧
    ∀ st, Slotrun err global p (newslots stack str) st → -1 ≤ st.top ∧ st.top ≤ 127 := by
  have hwithin := newslots_within stack str
  refine ⟨?_, expand_messages err global p str, fun st hrun => slotrun_within err global p hwithin hrun⟩
  obtain ⟨n, hn⟩ := (expandMachine err global p).runN_total ⟨[str], []⟩
  refine ⟨n, slotloop_runN err global p hwithin ?_⟩
  rw [Slots.image, newslots_pending, expand_run]
  exact hn

end GnuWindows.PkgConfig
