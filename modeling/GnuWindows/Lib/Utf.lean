/-
  GnuWindows.Lib.Utf — UTF-8 and UTF-16 as encodings of lists of Unicode scalar values.

  A scalar value is a `Char`; its UTF-8 bytes are Lean's `String.utf8EncodeChar`. A string
  is well formed when some scalar values encode to it. Bytes and units are put together
  from fields of bits, and the laws below turn the fields into sums and remainders.

  Any units, well formed or not, have code points, with each lone surrogate as one
  (`codePoints`), and any code points have bytes (`wtf8`).
-/
import Mathlib.Data.Nat.Bitwise
import Mathlib.Tactic.Common

namespace GnuWindows.Lib.Utf

/-! ## Fields of bits -/

/-- A field over `i` lower bits. -/
theorem shiftLeft_or {i b : Nat} (a : Nat) (h : b < 2 ^ i) : a <<< i ||| b = a * 2 ^ i + b := by
  rw [← Nat.shiftLeft_add_eq_or_of_lt h, Nat.shiftLeft_eq]

theorem and_mask (n a : Nat) : a &&& (2 ^ n - 1) = a % 2 ^ n := Nat.and_two_pow_sub_one_eq_mod a n

/-- The upper `k` of `i + k` bits. -/
theorem and_upper {n i k : Nat} (h : n < 2 ^ (i + k)) : n &&& (2 ^ k - 1) <<< i = n / 2 ^ i * 2 ^ i := by
  rw [← Nat.shiftRight_eq_div_pow, ← Nat.shiftLeft_eq]
  refine Nat.eq_of_testBit_eq fun j => ?_
  simp only [Nat.testBit_and, Nat.testBit_shiftLeft, Nat.testBit_two_pow_sub_one, Nat.testBit_shiftRight]
  by_cases hj : i ≤ j
  · rw [show i + (j - i) = j by omega]
    by_cases hk : j < i + k
    · have hlt : j - i < k := by omega
      simp [hj, hlt]
    · have hz : n.testBit j = false := Nat.testBit_lt_two_pow (Nat.lt_of_lt_of_le h (Nat.pow_le_pow_right (by decide)
        (by omega)))
      simp [hz]
  · simp [hj]

/-! ## Encodings -/

/-- The UTF-16 units of a scalar value. -/
def utf16EncodeChar (c : Char) : List UInt16 :=
  if c.toNat < 0x10000 then [UInt16.ofNat c.toNat]
  else [UInt16.ofNat (0xd800 + (c.toNat - 0x10000) / 0x400), UInt16.ofNat (0xdc00 + (c.toNat - 0x10000) % 0x400)]

def utf8 (cs : List Char) : List UInt8 := cs.flatMap String.utf8EncodeChar

def utf16 (cs : List Char) : List UInt16 := cs.flatMap utf16EncodeChar

def IsUtf8 (s : List UInt8) : Prop := ∃ cs, s = utf8 cs

def IsUtf16 (w : List UInt16) : Prop := ∃ cs, w = utf16 cs

@[simp] theorem utf8_nil : utf8 [] = [] := rfl
@[simp] theorem utf16_nil : utf16 [] = [] := rfl
@[simp] theorem utf8_cons (c : Char) (cs : List Char) : utf8 (c :: cs) = String.utf8EncodeChar c ++ utf8 cs := rfl
@[simp] theorem utf16_cons (c : Char) (cs : List Char) : utf16 (c :: cs) = utf16EncodeChar c ++ utf16 cs := rfl

theorem utf8_append (cs ds : List Char) : utf8 (cs ++ ds) = utf8 cs ++ utf8 ds := List.flatMap_append

theorem utf16_append (cs ds : List Char) : utf16 (cs ++ ds) = utf16 cs ++ utf16 ds := List.flatMap_append

theorem length_utf8_replicate (n : Nat) (c : Char) :
    (utf8 (List.replicate n c)).length = n * (String.utf8EncodeChar c).length := by
  simp [utf8, List.flatMap_replicate]

theorem mem_utf8_replicate {n : Nat} {c : Char} {b : UInt8} (h : b ∈ utf8 (List.replicate n c)) :
    b ∈ String.utf8EncodeChar c := by
  obtain ⟨d, hd, hb⟩ := List.mem_flatMap.mp h
  rwa [List.eq_of_mem_replicate hd] at hb

/-- A scalar value is below 0x110000 and not a surrogate. -/
theorem char_range (c : Char) : c.toNat < 0xd800 ∨ (0xdfff < c.toNat ∧ c.toNat < 0x110000) := c.valid

/-- The scalar value of a number in range. -/
theorem exists_char {n : Nat} (h : n < 0xd800 ∨ (0xdfff < n ∧ n < 0x110000)) : ∃ c : Char, c.toNat = n :=
  ⟨Char.ofNatAux n h, rfl⟩

/-! ## Code points of any units -/

def IsHigh (u : UInt16) : Prop := 0xd800 ≤ u.toNat ∧ u.toNat ≤ 0xdbff

def IsLow (u : UInt16) : Prop := 0xdc00 ≤ u.toNat ∧ u.toNat ≤ 0xdfff

instance (u : UInt16) : Decidable (IsHigh u) := inferInstanceAs (Decidable (_ ∧ _))
instance (u : UInt16) : Decidable (IsLow u) := inferInstanceAs (Decidable (_ ∧ _))

/-- A code point that is half of a pair. -/
def IsSurrogate (p : Nat) : Prop := 0xd800 ≤ p ∧ p ≤ 0xdfff

instance (p : Nat) : Decidable (IsSurrogate p) := inferInstanceAs (Decidable (_ ∧ _))

def combine (hi lo : UInt16) : Nat := 0x10000 + (hi.toNat - 0xd800) * 0x400 + (lo.toNat - 0xdc00)

/-- The code points of a string of units: pairs combined, lone surrogates by themselves. -/
def codePoints : List UInt16 → List Nat
  | [] => []
  | [u] => [u.toNat]
  | hi :: lo :: rest =>
    if IsHigh hi ∧ IsLow lo then combine hi lo :: codePoints rest else hi.toNat :: codePoints (lo :: rest)

/-- The bytes of a code point, surrogates included. -/
def encodePoint (p : Nat) : List UInt8 :=
  if p < 0x80 then [UInt8.ofNat p]
  else if p < 0x800 then [UInt8.ofNat (192 + p / 64), UInt8.ofNat (128 + p % 64)]
  else if p < 0x10000 then
    [UInt8.ofNat (224 + p / 4096), UInt8.ofNat (128 + p / 64 % 64), UInt8.ofNat (128 + p % 64)]
  else
    [UInt8.ofNat (240 + p / 262144), UInt8.ofNat (128 + p / 4096 % 64), UInt8.ofNat (128 + p / 64 % 64),
      UInt8.ofNat (128 + p % 64)]

/-- WTF-8: UTF-8 but for lone surrogates, which are encoded like other code points. -/
def wtf8 (w : List UInt16) : List UInt8 := (codePoints w).flatMap encodePoint

/-- The units of a code point. -/
def unitsOf (p : Nat) : List UInt16 :=
  if p < 0x10000 then [UInt16.ofNat p]
  else [UInt16.ofNat (0xd800 + (p - 0x10000) / 0x400), UInt16.ofNat (0xdc00 + (p - 0x10000) % 0x400)]

theorem combine_range {hi lo : UInt16} (h : IsHigh hi ∧ IsLow lo) :
    0x10000 ≤ combine hi lo ∧ combine hi lo < 0x110000 := by
  obtain ⟨⟨_, _⟩, _, _⟩ := h
  unfold combine
  omega

theorem codePoints_lt (w : List UInt16) : ∀ p ∈ codePoints w, p < 0x110000 := by
  induction w using codePoints.induct with
  | case1 => simp [codePoints]
  | case2 u =>
    have := u.toNat_lt
    simp only [codePoints, List.mem_singleton, forall_eq]
    omega
  | case3 hi lo rest h ih =>
    rw [codePoints, if_pos h]
    exact List.forall_mem_cons.mpr ⟨(combine_range h).2, ih⟩
  | case4 hi lo rest h ih =>
    have := hi.toNat_lt
    rw [codePoints, if_neg h]
    exact List.forall_mem_cons.mpr ⟨by omega, ih⟩

theorem unitsOf_unit (u : UInt16) : unitsOf u.toNat = [u] := by
  rw [unitsOf, if_pos u.toNat_lt, UInt16.ofNat_toNat]

theorem unitsOf_combine {hi lo : UInt16} (h : IsHigh hi ∧ IsLow lo) : unitsOf (combine hi lo) = [hi, lo] := by
  obtain ⟨⟨_, _⟩, _, _⟩ := h
  rw [unitsOf, if_neg (by unfold combine; omega),
    show 0xd800 + (combine hi lo - 0x10000) / 0x400 = hi.toNat by unfold combine; omega,
    show 0xdc00 + (combine hi lo - 0x10000) % 0x400 = lo.toNat by unfold combine; omega, UInt16.ofNat_toNat,
    UInt16.ofNat_toNat]

/-- The code points have the units they were read from. -/
theorem unitsOf_codePoints (w : List UInt16) : (codePoints w).flatMap unitsOf = w := by
  induction w using codePoints.induct with
  | case1 => rfl
  | case2 u => rw [codePoints, List.flatMap_singleton, unitsOf_unit]
  | case3 hi lo rest h ih => rw [codePoints, if_pos h, List.flatMap_cons, unitsOf_combine h, ih]; rfl
  | case4 hi lo rest h ih => rw [codePoints, if_neg h, List.flatMap_cons, unitsOf_unit, ih]; rfl

theorem utf16EncodeChar_eq (c : Char) : utf16EncodeChar c = unitsOf c.toNat := rfl

theorem codePoints_encode (c : Char) (t : List UInt16) :
    codePoints (utf16EncodeChar c ++ t) = c.toNat :: codePoints t := by
  have hc := char_range c
  unfold utf16EncodeChar
  generalize c.toNat = v at hc ⊢
  split
  · have hv : (UInt16.ofNat v).toNat = v := UInt16.toNat_ofNat_of_lt' (by omega)
    cases t with
    | nil =>
      show [(UInt16.ofNat v).toNat] = [v]
      rw [hv]
    | cons lo t =>
      rw [List.singleton_append, codePoints, if_neg, hv]
      unfold IsHigh
      omega
  · have hhi : (UInt16.ofNat (0xd800 + (v - 0x10000) / 0x400)).toNat = 0xd800 + (v - 0x10000) / 0x400 :=
      UInt16.toNat_ofNat_of_lt' (by show _ < 65536; omega)
    have hlo : (UInt16.ofNat (0xdc00 + (v - 0x10000) % 0x400)).toNat = 0xdc00 + (v - 0x10000) % 0x400 :=
      UInt16.toNat_ofNat_of_lt' (by show _ < 65536; omega)
    rw [List.cons_append, List.singleton_append, codePoints, if_pos (by unfold IsHigh IsLow; omega)]
    have hv : combine (UInt16.ofNat (0xd800 + (v - 0x10000) / 0x400)) (UInt16.ofNat (0xdc00 + (v - 0x10000) % 0x400)) =
        v := by
      unfold combine
      omega
    rw [hv]

/-- Units are well formed when no surrogate stands alone. -/
theorem isUtf16_iff (w : List UInt16) : IsUtf16 w ↔ ∀ p ∈ codePoints w, ¬ IsSurrogate p := by
  constructor
  · intro h
    obtain ⟨cs, rfl⟩ := h
    induction cs with
    | nil => simp [codePoints]
    | cons c cs ih =>
      rw [utf16_cons, codePoints_encode]
      have hc := char_range c
      refine List.forall_mem_cons.mpr ⟨?_, ih⟩
      unfold IsSurrogate
      omega
  · intro h
    have hchars : ∀ ps : List Nat, (∀ p ∈ ps, p < 0x110000) → (∀ p ∈ ps, ¬ IsSurrogate p) →
        ∃ cs : List Char, ps.flatMap unitsOf = utf16 cs := by
      intro ps hlt hs
      induction ps with
      | nil => exact ⟨[], rfl⟩
      | cons p ps ih =>
        obtain ⟨cs, hcs⟩ := ih (fun q hq => hlt q (List.mem_cons_of_mem _ hq)) fun q hq =>
          hs q (List.mem_cons_of_mem _ hq)
        have hp := hs p List.mem_cons_self
        have hplt := hlt p List.mem_cons_self
        unfold IsSurrogate at hp
        obtain ⟨c, rfl⟩ := exists_char (n := p) (by omega)
        exact ⟨c :: cs, by rw [List.flatMap_cons, hcs, utf16_cons, utf16EncodeChar_eq]⟩
    obtain ⟨cs, hcs⟩ := hchars _ (codePoints_lt w) h
    exact ⟨cs, by rw [← hcs, unitsOf_codePoints]⟩

end GnuWindows.Lib.Utf
