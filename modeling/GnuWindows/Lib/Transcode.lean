/-
  GnuWindows.Lib.Transcode — converting a string in two passes: count, then write.

  A decoder reads one rune off a string that is not empty; an encoder says which elements
  a rune is written as. The first pass counts these elements, the second writes them into
  memory of that size, and a write past it is `none`.

  Proved: the passes agree, so a conversion ends with the elements of all runes
  (`convert_eq`), as many as were counted (`count_eq`).
-/
import Mathlib.Tactic.Common

namespace GnuWindows.Lib.Transcode

structure Codec (α β : Type) where
  /-- What follows the first rune, and the rune. -/
  decode : List α → List α × Nat
  encode : Nat → List β
  takes : ∀ {s : List α}, s ≠ [] → (decode s).1.length < s.length

namespace Codec

variable {α β : Type} (C : Codec α β)

/-- The first pass. -/
def count (tail : List α) (len : Nat) : Nat :=
  if _h : tail = [] then len
  else
    let state := C.decode tail
    count state.1 (len + (C.encode state.2).length)
termination_by tail.length
decreasing_by exact C.takes _h

/-- The second pass, into memory for `len` elements. -/
def write (len : Nat) (tail : List α) (w : List β) : Option (List β) :=
  if _h : tail = [] then some w
  else
    let state := C.decode tail
    let units := C.encode state.2
    if w.length + units.length ≤ len then write len state.1 (w ++ units) else none
termination_by tail.length
decreasing_by exact C.takes _h

def convert (s : List α) : Option (List β) := C.write (C.count s 0) s []

/-- The runes of a string. -/
def runes (s : List α) : List Nat :=
  if _h : s = [] then [] else (C.decode s).2 :: runes (C.decode s).1
termination_by s.length
decreasing_by exact C.takes _h

theorem runes_nil : C.runes [] = [] := by rw [runes, dif_pos rfl]

theorem runes_cons {s : List α} (h : s ≠ []) : C.runes s = (C.decode s).2 :: C.runes (C.decode s).1 := by
  rw [runes, dif_neg h]

theorem count_eq (s : List α) (len : Nat) : C.count s len = len + ((C.runes s).flatMap C.encode).length := by
  induction s, len using count.induct C with
  | case1 len => rw [count, dif_pos rfl, runes_nil]; rfl
  | case2 s len h state ih =>
    rw [count, dif_neg h, ih, C.runes_cons h, List.flatMap_cons, List.length_append, Nat.add_assoc]

theorem write_eq (s : List α) (w : List β) {len : Nat} (h : w.length + ((C.runes s).flatMap C.encode).length ≤ len) :
    C.write len s w = some (w ++ (C.runes s).flatMap C.encode) := by
  induction s, w using write.induct C len with
  | case1 w => rw [write, dif_pos rfl, runes_nil, List.flatMap_nil, List.append_nil]
  | case2 s w hs state units hfit ih =>
    rw [C.runes_cons hs, List.flatMap_cons, List.length_append, ← Nat.add_assoc] at h
    rw [write, dif_neg hs]
    simp only
    rw [if_pos hfit, ih (by rw [List.length_append]; exact h), C.runes_cons hs, List.flatMap_cons, List.append_assoc]
  | case3 s w hs state units hfit =>
    rw [C.runes_cons hs, List.flatMap_cons, List.length_append, ← Nat.add_assoc] at h
    exact absurd (Nat.le_trans (Nat.le_add_right _ _) h) hfit

/-- The second pass writes what the first one counted. -/
theorem convert_eq (s : List α) : C.convert s = some ((C.runes s).flatMap C.encode) := by
  rw [convert, C.write_eq s [] (by rw [count_eq]; simp), List.nil_append]

/-- Every rune is a value, when each one that is decoded is. -/
theorem runes_values {ρ : Type} {value : ρ → Nat} (h : ∀ s, s ≠ [] → ∃ r, (C.decode s).2 = value r) (s : List α) :
    ∃ rs : List ρ, C.runes s = rs.map value := by
  induction s using runes.induct C with
  | case1 => exact ⟨[], C.runes_nil⟩
  | case2 s hs ih =>
    obtain ⟨r, hr⟩ := h s hs
    obtain ⟨rs, hrs⟩ := ih
    exact ⟨r :: rs, by rw [C.runes_cons hs, hr, hrs]; rfl⟩

/-- When every rune of `rs` is read off its own elements, so are they all. -/
theorem runes_flatMap {ρ : Type} {elements : ρ → List α} (value : ρ → Nat) (rs : List ρ)
    (hne : ∀ r ∈ rs, elements r ≠ []) (h : ∀ r ∈ rs, ∀ t, C.decode (elements r ++ t) = (t, value r)) :
    C.runes (rs.flatMap elements) = rs.map value := by
  induction rs with
  | nil => exact C.runes_nil
  | cons r rs ih =>
    have hr := h r List.mem_cons_self (rs.flatMap elements)
    have hne' : elements r ++ rs.flatMap elements ≠ [] := by
      intro e
      exact hne r List.mem_cons_self (List.append_eq_nil_iff.mp e).1
    rw [List.flatMap_cons, C.runes_cons hne', hr, List.map_cons,
      ih (fun r hm => hne r (List.mem_cons_of_mem _ hm)) fun r hm => h r (List.mem_cons_of_mem _ hm)]

end Codec

end GnuWindows.Lib.Transcode
