/-
  GnuWindows.Peports.Gives — what a computation of peports.c gives, and how it fails.

  `Gives E x Q`: whatever was printed before, `x` gives a value with `Q` or fails with a
  fault in `E`. With all faults in `E` it says what a value tells about the input, which
  is what ends a loop; with `Thrown` it also says that nothing but a throw can happen.
-/
import GnuWindows.Peports.Memory
import Mathlib.Algebra.Group.Nat.Defs

namespace GnuWindows.Peports

open GnuWindows.Lib.Hoare (Comp Nearer Triple)
open GnuWindows.PkgConfig (S8)

/-- What the code throws itself. -/
def Thrown (e : Fault) : Prop := ∃ reason, e = .throw reason

structure Gives {α : Type} (E : Fault → Prop) (x : Pe α) (Q : α → Prop) : Prop where
  outcome : Triple (fun _ => True) x (fun a _ => Q a) fun e _ => E e

namespace Gives

variable {α β : Type} {E : Fault → Prop} {Q : α → Prop} {x : Pe α}

theorem pure {a : α} (h : Q a) : Gives E (Pure.pure a : Pe α) Q := ⟨Triple.pure fun _ _ => h⟩

theorem throw {e : Fault} (h : E e) : Gives E (MonadExcept.throw e : Pe α) Q := ⟨Triple.throw fun _ _ => h⟩

theorem mono {R : α → Prop} (h : Gives E x Q) (hQ : ∀ a, Q a → R a) : Gives E x R :=
  ⟨h.outcome.mono (fun _ h => h) (fun a _ => hQ a) fun _ _ h => h⟩

theorem bind {f : α → Pe β} {R : β → Prop} (hx : Gives E x Q) (hf : ∀ a, Q a → Gives E (f a) R) : Gives E (x >>= f) R :=
  ⟨hx.outcome.bind fun a s ha => (hf a ha).outcome s trivial⟩

theorem map {f : α → β} {R : β → Prop} (hx : Gives E x Q) (hf : ∀ a, Q a → R (f a)) : Gives E (f <$> x) R :=
  bind hx fun a ha => pure (hf a ha)

theorem ite {c : Prop} [Decidable c] {y : Pe α} (hpos : c → Gives E x Q) (hneg : ¬ c → Gives E y Q) :
    Gives E (if c then x else y) Q := by
  split
  · exact hpos ‹_›
  · exact hneg ‹_›

/-- What holds after a turn of a loop: `I` when it goes on, `Q` when it does not. -/
def Turned {τ : Type} (I Q : τ → Prop) : ForInStep τ → Prop
  | .yield t => I t
  | .done t => Q t

theorem loop {τ : Type} {body : τ → Pe (ForInStep τ)} {measure : τ → Nat} {h : Nearer body measure} {I P : τ → Prop}
    (hturn : ∀ t, I t → Gives E (body t) (Turned I P)) {t : τ} (ht : I t) : Gives E (Comp.loop body measure h t) P := by
  have hrun := Triple.loop (h := h) (I := fun t _ => I t) (Q := fun t _ => P t) (E := fun e _ => E e)
    (fun t s hs => ((hturn t hs).outcome s trivial).mono (fun r hr => by cases r <;> exact hr) fun _ he => he) t
  exact ⟨fun s _ => hrun s ht⟩

/-- When nothing is said of the value and no fault is left out. -/
theorem any : Gives (fun _ => True) x fun _ => True := ⟨Triple.true⟩

/-- A loop ends, when its turns tell that much. -/
theorem nearer {τ : Type} {body : τ → Pe (ForInStep τ)} {measure : τ → Nat}
    (h : ∀ t, Gives (fun _ => True) (body t) fun r => ∀ t', r = .yield t' → measure t' < measure t) :
    Nearer body measure := fun t => (h t).outcome

end Gives

/-! ## Arithmetic -/

variable {E : Fault → Prop}

theorem i32_gives {x : Int} (h : E .overflow ∨ (-0x80000000 ≤ x ∧ x < 0x80000000)) : Gives E (i32 x) (· = x) := by
  unfold i32
  split
  · exact .pure rfl
  · exact .throw (h.resolve_right ‹_›)

/-- An `i32` made of a `u32`. -/
theorem toi32_lt (x : UInt32) : toi32 x < 0x80000000 := by
  have := x.toNat_lt
  unfold toi32
  split <;> omega

/-! ## Slices -/

theorem Slice.len_nonneg (s : Slice) : 0 ≤ s.len := Int.natCast_nonneg _

theorem load_gives {s : Slice} {off : Int} (h : E .outofbounds ∨ (0 ≤ off ∧ off < s.len)) :
    Gives E (load s off) fun _ => True := by
  unfold load
  split
  · refine .throw (h.resolve_right ?_)
    intro h
    simp only [Slice.len, Option.getD_none, List.length_nil] at h
    omega
  · rename_i bytes
    apply Gives.ite
    · intro hneg
      exact .throw (h.resolve_right (by omega))
    · intro hpos
      split
      · rename_i hnone
        refine .throw (h.resolve_right ?_)
        intro h
        have hle := List.getElem?_eq_none_iff.mp hnone
        simp only [Slice.len, Option.getD_some] at h
        omega
      · exact .pure trivial

section

-- what the code throws is no fault here
variable (hE : ∀ e, Thrown e → E e)
include hE

theorem throws_gives {α : Type} {Q : α → Prop} {reason : String} : Gives E (throws reason : Pe α) Q :=
  .throw (hE _ ⟨_, rfl⟩)

theorem checkadd_gives {a b : UInt32} : Gives E (checkadd a b) fun _ => True :=
  .ite (fun _ => throws_gives hE) fun _ => .pure trivial

/-- A slice lies in the slice it is taken of. -/
theorem slice3_gives {s : Slice} {beg fin : Int} :
    Gives E (slice3 s beg fin) fun r => r.len = fin - beg ∧ 0 ≤ beg ∧ fin ≤ s.len := by
  refine .ite (fun _ => throws_gives hE) fun h => .pure ⟨?_, by omega, by omega⟩
  cases s with
  | none =>
    simp only [Slice.len, Option.map_none, Option.getD_none, List.length_nil] at h ⊢
    omega
  | some bytes =>
    simp only [Slice.len, Option.map_some, Option.getD_some, List.length_take, List.length_drop] at h ⊢
    omega

theorem slice2_gives {s : Slice} {beg : Int} : Gives E (slice2 s beg) fun r => r.len = s.len - beg ∧ 0 ≤ beg :=
  (slice3_gives hE).mono fun _ h => ⟨h.1, h.2.1⟩

/-- What was read lies in the slice. -/
theorem readu16_gives {s : Slice} {off : Int} (h : E .outofbounds ∨ 0 ≤ off) :
    Gives E (readu16 s off) fun _ => off + 2 ≤ s.len := by
  refine .ite (fun _ => throws_gives hE) fun hlen => ?_
  have hin : ∀ k : Int, 0 ≤ k → k < 2 → E .outofbounds ∨ (0 ≤ off + k ∧ off + k < s.len) :=
    fun k _ _ => h.imp_right fun _ => by omega
  refine (load_gives (hin 1 (by omega) (by omega))).bind fun p1 _ => ?_
  refine (load_gives (by simpa using hin 0 (by omega) (by omega))).bind fun p0 _ => .pure ?_
  omega

theorem readu32_gives {s : Slice} {off : Int} (h : E .outofbounds ∨ 0 ≤ off) :
    Gives E (readu32 s off) fun _ => off + 4 ≤ s.len := by
  refine .ite (fun _ => throws_gives hE) fun hlen => ?_
  have hin : ∀ k : Int, 0 ≤ k → k < 4 → E .outofbounds ∨ (0 ≤ off + k ∧ off + k < s.len) :=
    fun k _ _ => h.imp_right fun _ => by omega
  refine (load_gives (hin 3 (by omega) (by omega))).bind fun p3 _ => ?_
  refine (load_gives (hin 2 (by omega) (by omega))).bind fun p2 _ => ?_
  refine (load_gives (hin 1 (by omega) (by omega))).bind fun p1 _ => ?_
  refine (load_gives (by simpa using hin 0 (by omega) (by omega))).bind fun p0 _ => .pure ?_
  omega

/-! ## The arena -/

theorem alloc_gives {a : Arena} {count : Int} {size align : Nat} (h : 0 ≤ count) :
    Gives E (alloc a count size align) fun _ => True := by
  unfold alloc
  simp only
  rw [dif_neg (by omega)]
  split
  · exact throws_gives hE
  · exact .pure trivial

end

/-! ## Printing -/

theorem print_gives (oswrite : List S8 → S8 → Bool) (s : S8) : Gives E (print oswrite s) fun _ => True :=
  ⟨Triple.step fun _ _ => trivial⟩

theorem digits_length (x : Nat) : ∀ k, x < 10 ^ (k + 1) → (digits x).length ≤ k + 1 := by
  induction x using digits.induct with
  | case1 x h =>
    intro k _
    rw [digits, dif_pos h, List.length_singleton]
    omega
  | case2 x h ih =>
    intro k hk
    rw [digits, dif_neg h, List.length_append, List.length_singleton]
    cases k with
    | zero => omega
    | succ k =>
      have := ih k (by rw [Nat.pow_succ] at hk; omega)
      omega

/-- Ten digits are enough. -/
theorem printu32_gives (oswrite : List S8 → S8 → Bool) (x : UInt32) : Gives E (printu32 oswrite x) fun _ => True := by
  have hx := x.toNat_lt
  have hlen := digits_length x.toNat 9 (by omega)
  exact .ite (fun _ => print_gives oswrite _) fun h => absurd (by omega) h

theorem printname_gives (oswrite : List S8 → S8 → Bool) (s : Slice) : Gives E (printname oswrite s) fun _ => True := by
  unfold printname
  split
  · exact print_gives oswrite _
  · refine ⟨Triple.forM fun c _ => Gives.outcome ?_⟩
    exact .ite (fun _ => print_gives oswrite _) fun _ => print_gives oswrite _

end GnuWindows.Peports
