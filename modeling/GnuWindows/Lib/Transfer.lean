/-
  GnuWindows.Lib.Transfer — files read and written by calls that do a part.

  A source gives no more than it is asked for. It delivers a file (`Delivers`) when its calls
  give what is left in order, and nothing only at the end. `collect` calls it until there is
  no room or nothing comes; how much it asks for, of the room there is, is a parameter.

  A drain takes no more than it is given, or fails. `deliver` calls it until everything is
  taken or a call fails.

  Proved: `collect_eq`, what is collected is what there is room for, and the rest is left;
  `deliver_taken`, what is taken of a text is all of it exactly when no call fails, and what
  comes before the rest if one does.
-/
import Mathlib.Tactic.Common

namespace GnuWindows.Lib.Transfer

variable {σ γ : Type}

/-! ## Reading -/

structure Source (σ γ : Type) where
  read : σ → Nat → List γ × σ
  read_le : ∀ s n, (read s n).1.length ≤ n

structure Delivers (R : Source σ γ) (left : σ → List γ) : Prop where
  order : ∀ s n, left s = (R.read s n).1 ++ left (R.read s n).2
  more : ∀ s n, 0 < n → left s ≠ [] → (R.read s n).1 ≠ []

section

variable (R : Source σ γ) (ask : Nat → Nat)

def collect (room : Nat) (s : σ) : List γ × σ :=
  if 0 < room then
    let r := R.read s (ask room)
    if _h : r.1.length < 1 then ([], r.2)
    else
      let rest := collect (room - r.1.length) r.2
      (r.1 ++ rest.1, rest.2)
  else ([], s)
termination_by room
decreasing_by
  show room - r.1.length < room
  omega

variable {R ask} (hask : ∀ n, ask n ≤ n)
include hask

theorem collect_le (room : Nat) (s : σ) : (collect R ask room s).1.length ≤ room := by
  induction room, s using collect.induct R ask with
  | case1 room s hroom r hnone =>
    rw [collect, if_pos hroom, dif_pos hnone]
    exact Nat.zero_le _
  | case2 room s hroom r hsome ih =>
    have hle : r.1.length ≤ ask room := R.read_le s (ask room)
    have hroom' := hask room
    rw [collect, if_pos hroom, dif_neg hsome]
    show (r.1 ++ (collect R ask (room - r.1.length) r.2).1).length ≤ room
    rw [List.length_append]
    omega
  | case3 room s hroom =>
    rw [collect, if_neg hroom]
    exact Nat.zero_le _

/-- What there is room for is collected, and the rest is left. -/
theorem collect_eq {left : σ → List γ} (hR : Delivers R left) (hpos : ∀ n, 0 < n → 0 < ask n) (room : Nat) (s : σ) :
    (collect R ask room s).1 = (left s).take room ∧ left (collect R ask room s).2 = (left s).drop room := by
  induction room, s using collect.induct R ask with
  | case1 room s hroom r hnone =>
    have hr : (R.read s (ask room)).1 = [] := List.length_eq_zero_iff.mp (Nat.lt_one_iff.mp hnone)
    have hend : left s = [] := not_not.mp fun hne => hR.more s (ask room) (hpos room hroom) hne hr
    have horder := hR.order s (ask room)
    rw [hend, hr, List.nil_append] at horder
    rw [collect, if_pos hroom, dif_pos hnone, hend, List.take_nil, List.drop_nil]
    exact ⟨rfl, horder.symm⟩
  | case2 room s hroom r hsome ih =>
    have hle : r.1.length ≤ room := Nat.le_trans (R.read_le s (ask room)) (hask room)
    have horder : left s = r.1 ++ left r.2 := hR.order s (ask room)
    rw [collect, if_pos hroom, dif_neg hsome]
    show r.1 ++ (collect R ask (room - r.1.length) r.2).1 = _ ∧ left (collect R ask (room - r.1.length) r.2).2 = _
    rw [ih.1, ih.2, horder, List.take_append, List.take_of_length_le hle, List.drop_append,
      List.drop_of_length_le hle, List.nil_append]
    exact ⟨rfl, rfl⟩
  | case3 room s hroom =>
    obtain rfl : room = 0 := Nat.eq_zero_of_not_pos hroom
    rw [collect, if_neg hroom]
    exact ⟨rfl, rfl⟩

end

/-- A source of what is in memory already: `cut` says how much a call gives. -/
def ofText (cut : List γ → Nat → Nat) : Source (List γ) γ where
  read s n := (s.take (min (cut s n) n), s.drop (min (cut s n) n))
  read_le s n := by
    rw [List.length_take]
    omega

theorem ofText_delivers {cut : List γ → Nat → Nat} (h : ∀ s n, 0 < n → 0 < cut s n) : Delivers (ofText cut) id where
  order s n := (List.take_append_drop _ s).symm
  more s n hn hs hnone := by
    have hcut := h s n hn
    rcases List.take_eq_nil_iff.mp hnone with h0 | h0
    · omega
    · exact hs h0

/-! ## Calls -/

/-- The calls so far, none of which comes after a failure, and whether the last one failed. -/
inductive Calls {τ : Type} (call : List τ → τ → Bool) : List τ → Bool → Prop
  | start : Calls call [] false
  | call {calls : List τ} (x : τ) : Calls call calls false → Calls call (calls ++ [x]) (!call calls x)

/-- All calls but the last have succeeded, and all of them without an error. -/
theorem Calls.succeeded {τ : Type} {call : List τ → τ → Bool} {calls : List τ} {err : Bool} (h : Calls call calls err)
    {before after : List τ} {x : τ} (hcalls : calls = before ++ x :: after) (hx : err = false ∨ after ≠ []) :
    call before x = true := by
  induction h generalizing after with
  | start => exact absurd hcalls (by simp)
  | call y h ih =>
    rcases List.eq_nil_or_concat after with rfl | ⟨after, z, rfl⟩
    · obtain ⟨rfl, hy⟩ := List.append_inj' hcalls rfl
      obtain rfl : y = x := (List.cons.inj hy).1
      rcases hx with hx | hx
      · simpa using hx
      · exact absurd rfl hx
    · rw [List.concat_eq_append, ← List.cons_append, ← List.append_assoc] at hcalls
      exact ih (List.append_inj' hcalls rfl).1 (Or.inl rfl)

/-- An error is the last call's. -/
theorem Calls.failed {τ : Type} {call : List τ → τ → Bool} {calls : List τ} (h : Calls call calls true) :
    ∃ before x, calls = before ++ [x] ∧ call before x = false := by
  generalize herr : true = err at h
  cases h with
  | start => cases herr
  | call x h => exact ⟨_, x, rfl, by simpa using herr.symm⟩

/-- There is none where every call succeeds. -/
theorem Calls.took {τ : Type} {call : List τ → τ → Bool} {calls : List τ} {err : Bool} (h : Calls call calls err)
    (htakes : ∀ before x, call before x = true) : err = false := by
  cases err with
  | false => rfl
  | true =>
    obtain ⟨before, x, -, hfail⟩ := h.failed
    rw [htakes] at hfail
    cases hfail

/-! ## Writing -/

/-- How many elements a call takes; none when it fails. -/
structure Drain (σ γ : Type) where
  write : σ → List γ → Nat × σ
  write_le : ∀ s text, (write s text).1 ≤ text.length

/-- The drain takes what a call says. -/
def Drain.Takes (W : Drain σ γ) (taken : σ → List γ) : Prop :=
  ∀ s text, taken (W.write s text).2 = taken s ++ text.take (W.write s text).1

section

variable (W : Drain σ γ)

def deliver (s : σ) (text : List γ) : Bool × σ :=
  if 0 < text.length then
    let r := W.write s text
    if _h : r.1 < 1 then (false, r.2) else deliver r.2 (text.drop r.1)
  else (true, s)
termination_by text.length
decreasing_by
  show (text.drop r.1).length < text.length
  rw [List.length_drop]
  omega

/-- One text after the other, up to one that is not taken whole. -/
def delivers (s : σ) : List (List γ) → Bool × σ
  | [] => (true, s)
  | text :: texts => match deliver W s text with
    | (true, s) => delivers s texts
    | (false, s) => (false, s)

variable {W} {taken : σ → List γ}

/-- All of a text is taken exactly when no call fails. -/
theorem deliver_taken (hW : W.Takes taken) (s : σ) (text : List γ) : ∃ n,
    taken (deliver W s text).2 = taken s ++ text.take n ∧ ((deliver W s text).1 = true ↔ text.length ≤ n) := by
  induction s, text using deliver.induct W with
  | case1 s text hmore r hfail =>
    rw [deliver, if_pos hmore, dif_pos hfail]
    refine ⟨r.1, hW s text, ?_⟩
    simp only [Bool.false_eq_true, false_iff]
    omega
  | case2 s text hmore r hsome ih =>
    obtain ⟨n, htaken, hall⟩ := ih
    have htook : taken r.2 = taken s ++ text.take r.1 := hW s text
    have hle : r.1 ≤ text.length := W.write_le s text
    rw [deliver, if_pos hmore, dif_neg hsome]
    refine ⟨r.1 + n, ?_, ?_⟩
    · show taken (deliver W r.2 (text.drop r.1)).2 = _
      rw [htaken, htook, List.append_assoc, List.take_add]
    · show (deliver W r.2 (text.drop r.1)).1 = true ↔ _
      rw [hall, List.length_drop]
      omega
  | case3 s text hend =>
    obtain rfl : text = [] := List.length_eq_zero_iff.mp (Nat.eq_zero_of_not_pos hend)
    rw [deliver, if_neg hend]
    exact ⟨0, (List.append_nil _).symm, iff_of_true rfl (Nat.le_refl 0)⟩

/-- All of the texts is taken when no call fails, and else what comes before the rest. -/
theorem delivers_taken (hW : W.Takes taken) (s : σ) (texts : List (List γ)) : ∃ n,
    taken (delivers W s texts).2 = taken s ++ texts.flatten.take n ∧
      ((delivers W s texts).1 = true → texts.flatten.length ≤ n) := by
  induction texts generalizing s with
  | nil => exact ⟨0, (List.append_nil _).symm, fun _ => Nat.le_refl 0⟩
  | cons text texts ih =>
    obtain ⟨n, htaken, hall⟩ := deliver_taken hW s text
    rw [delivers]
    cases hr : deliver W s text with
    | mk ok s' =>
      rw [hr] at htaken hall
      cases ok with
      | false =>
        have hn : n < text.length := Nat.lt_of_not_le fun hle => Bool.false_ne_true (hall.mpr hle)
        refine ⟨n, ?_, fun h => absurd h Bool.false_ne_true⟩
        rw [List.flatten_cons, List.take_append_of_le_length (Nat.le_of_lt hn)]
        exact htaken
      | true =>
        obtain ⟨m, htaken', hall'⟩ := ih s'
        have hn : text.length ≤ n := hall.mp rfl
        refine ⟨text.length + m, ?_, fun h => ?_⟩
        · rw [htaken', List.flatten_cons, List.take_length_add_append, ← List.append_assoc]
          rw [show taken s' = taken s ++ text.take n from htaken, List.take_of_length_le hn]
        · have := hall' h
          rw [List.flatten_cons, List.length_append]
          omega

end

end GnuWindows.Lib.Transfer
