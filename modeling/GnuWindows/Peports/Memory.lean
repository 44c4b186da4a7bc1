/-
  GnuWindows.Peports.Memory — slices, the arena and the output buffer of peports.c.

  An access that leaves its slice or array, a signed 32-bit computation that overflows and
  a failed assertion are outcomes of their own, apart from what the code throws.

  A slice is `none` for the null pointer, else the list of its bytes. A buffer carries the
  fact that it is never left full, which is what lets the loop of `print` go on.
-/
import GnuWindows.Lib.Hoare
import GnuWindows.PkgConfig.Bytes

namespace GnuWindows.Peports

open GnuWindows.Lib.Hoare (Comp)
open GnuWindows.PkgConfig (S8 S)

/-! ## The output buffer -/

structure U8buf where
  buf : S8
  err : Bool
  /-- What `oswrite` was called with, in order. -/
  chunks : List S8
  room : buf.length < 1 <<< 12

def newu8buf : U8buf := ⟨[], false, [], by decide⟩

-- what `oswrite` returns for a chunk, after the earlier ones
variable (oswrite : List S8 → S8 → Bool)

def flush (b : U8buf) : U8buf :=
  if b.err = false ∧ b.buf ≠ [] then ⟨[], !oswrite b.chunks b.buf, b.chunks ++ [b.buf], by decide⟩ else b

/-- The loop of `print`. -/
def prints8 (b : U8buf) (s : S8) : U8buf :=
  if _h : b.err = false ∧ s ≠ [] then
    let avail := (1 <<< 12) - b.buf.length
    let count := min avail s.length
    let buf := b.buf ++ s.take count
    if hfull : buf.length = 1 <<< 12 then
      prints8 ⟨[], !oswrite b.chunks buf, b.chunks ++ [buf], by decide⟩ (s.drop count)
    else
      prints8 ⟨buf, false, b.chunks, by
        have := b.room
        simp only [buf, count, avail, List.length_append, List.length_take] at hfull ⊢
        omega⟩ (s.drop count)
  else b
termination_by s.length
decreasing_by
  all_goals
    have h1 := List.length_pos_iff.mpr _h.2
    have h2 := b.room
    simp only [List.length_drop]
    omega

/-! ## Faults -/

inductive Fault where
  | throw (reason : S8)
  /-- An access outside of its slice or array. -/
  | outofbounds
  /-- In a signed 32-bit computation. -/
  | overflow
  /-- A failed assertion. -/
  | unreachable
  deriving DecidableEq

/-- A computation that prints to standard output. -/
abbrev Pe (α : Type) := Comp U8buf Fault α

def throws {α : Type} (reason : String) : Pe α := throw (.throw (S reason))

/-- The value of a signed 32-bit computation. -/
def i32 (x : Int) : Pe Int := if -0x80000000 ≤ x ∧ x < 0x80000000 then pure x else throw .overflow

/-- The conversion to a signed type. -/
def toi32 (x : UInt32) : Int := if x.toNat < 0x80000000 then x.toNat else x.toNat - 0x100000000

/-- Throws when the result overflows. -/
def checkadd (a b : UInt32) : Pe UInt32 :=
  if 0xffffffff - b < a then throws "overflow computing 32-bit offset" else pure (a + b)

/-! ## Slices -/

abbrev Slice := Option S8

def Slice.len (s : Slice) : Int := (s.getD []).length

def slice3 (s : Slice) (beg fin : Int) : Pe Slice :=
  if beg < 0 ∨ fin < beg ∨ s.len < fin then throws "unexpected end of input (slice)"
  else pure (s.map fun bytes => (bytes.drop beg.toNat).take (fin - beg).toNat)

def slice2 (s : Slice) (beg : Int) : Pe Slice := slice3 s beg s.len

/-- `s.data[off]`. -/
def load (s : Slice) (off : Int) : Pe UInt8 :=
  match s with
  | none => throw .outofbounds
  | some bytes =>
    if off < 0 then throw .outofbounds
    else
      match bytes[off.toNat]? with
      | none => throw .outofbounds
      | some b => pure b

def readu16 (s : Slice) (off : Int) : Pe UInt16 := do
  if s.len - 2 < off then throws "unexpected end of input (uint16)"
  else
    let p1 ← load s (off + 1)
    let p0 ← load s off
    pure (p1.toUInt16 <<< 8 ||| p0.toUInt16)

def readu32 (s : Slice) (off : Int) : Pe UInt32 := do
  if s.len - 4 < off then throws "unexpected end of input (uint32)"
  else
    let p3 ← load s (off + 3)
    let p2 ← load s (off + 2)
    let p1 ← load s (off + 1)
    let p0 ← load s off
    pure (p3.toUInt32 <<< 24 ||| p2.toUInt32 <<< 16 ||| p1.toUInt32 <<< 8 ||| p0.toUInt32)

/-- The bytes before the first zero. -/
def nullterm (s : Slice) : Slice := s.map (·.takeWhile (· ≠ 0))

/-! ## The arena -/

/-- The addresses that are free. -/
structure Arena where
  beg : Nat
  fin : Nat
  le : beg ≤ fin
  fits : fin < 0x10000000000000000

theorem mul_le_of_lt_tdiv {x : Int} {count size : Nat} (h : (count : Int) < x.tdiv size) :
    (count * size : Nat) ≤ x := by
  cases x with
  | ofNat n =>
    have hlt : count < n / size := by
      rw [Int.ofNat_eq_natCast, ← Int.ofNat_tdiv] at h
      exact Int.ofNat_lt.mp h
    have hle := Nat.mul_le_of_le_div size count n (Nat.le_of_lt hlt)
    exact Int.ofNat_le.mpr hle
  | negSucc n =>
    have hle : (Int.negSucc n).tdiv size ≤ 0 := by
      rw [Int.negSucc_eq, Int.neg_tdiv]
      have := Int.tdiv_nonneg (a := (n : Int) + 1) (b := size) (by omega) (by omega)
      omega
    omega

/-- The arena after an allocation of `count` zeroed objects. -/
def alloc (a : Arena) (count : Int) (size align : Nat) : Pe Arena :=
  let pad := (0x10000000000000000 - a.beg) &&& (align - 1)
  if _hassert : count < 0 then throw .unreachable
  else if _hroom : ((a.fin : Int) - a.beg - pad).tdiv size ≤ count then throws "out of memory"
  else
    pure ⟨a.beg + (pad + count.toNat * size), a.fin, by
      have hle : (count.toNat * size : Nat) ≤ (a.fin : Int) - a.beg - pad := mul_le_of_lt_tdiv (by omega)
      have := a.le
      omega, a.fits⟩

/-! ## Printing -/

def print (s : S8) : Pe Unit := Comp.step fun b => prints8 oswrite b s

/-- The decimal digits of a number. -/
def digits (x : Nat) : S8 :=
  if _h : x / 10 = 0 then [UInt8.ofNat (x % 10) + 0x30] else digits (x / 10) ++ [UInt8.ofNat (x % 10) + 0x30]
termination_by x
decreasing_by omega

/-- The digits are stored in an array of 16 bytes. -/
def printu32 (x : UInt32) : Pe Unit :=
  if (digits x.toNat).length ≤ 16 then print oswrite (digits x.toNat) else throw .outofbounds

/-- `"0123456789abcdef"[n]`. -/
def hexdigit (n : UInt8) : UInt8 := if n < 10 then 0x30 + n else 0x61 + (n - 10)

/-- A byte that is not printed as it is. -/
def escapes (c : UInt8) : Bool := c < 0x20 || 0x7f < c || c == 0x3c || c == 0x3e || c == 0x5c

def printname (s : Slice) : Pe Unit :=
  match s.getD [] with
  | [] => print oswrite (S "<>")
  | c :: rest =>
    (c :: rest).forM fun c =>
      if escapes c then print oswrite [0x5c, 0x78, hexdigit (c >>> 4), hexdigit (c &&& 15)] else print oswrite [c]

end GnuWindows.Peports
