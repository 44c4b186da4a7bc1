/-
  GnuWindows.PkgConfig.Bytes — byte strings (`s8`) of pkg-config.c and the small scans
  over them: tokens, cuts, the path encoding, directory and package names.

  A slice is the list of its bytes: `takehead` and `cuthead` are `take` and `drop`. Where
  the code tests a slice for the null pointer the model has an `Option S8`, with `none`
  for null; an empty slice that is not null is `some []`.
-/
import Mathlib.Tactic.Common

namespace GnuWindows.PkgConfig

abbrev S8 := List UInt8

/-- The `S` macro: the bytes of a string literal. -/
def S (s : String) : S8 := s.toByteArray.data.toList

def VERSION : S8 := S "0.33.1"

/-! ## Classes of bytes -/

def digit (c : UInt8) : Bool := 0x30 ≤ c && c ≤ 0x39

/-- Tab, newline, carriage return and space. -/
def whitespace (c : UInt8) : Bool := c == 0x09 || c == 0x0a || c == 0x0d || c == 0x20

/-- `/` and `\`. -/
def pathsep (c : UInt8) : Bool := c == 0x2f || c == 0x5c

/-- Whitespace and `,`. -/
def tokenspace (c : UInt8) : Bool := whitespace c || c == 0x2c

/-! ## Slices -/

def startswith (s pre : S8) : Bool := pre.length ≤ s.length && s.take pre.length == pre

theorem startswith_iff {s pre : S8} : startswith s pre = true ↔ pre <+: s := by
  rw [startswith, Bool.and_eq_true, decide_eq_true_eq, beq_iff_eq, List.prefix_iff_eq_take]
  constructor
  · intro h; exact h.2.symm
  · intro h; exact ⟨by rw [h, List.length_take]; exact Nat.min_le_right _ _, h.symm⟩

/-- FNV-1a in 32 bits. -/
def s8hash (s : S8) : UInt32 := s.foldl (fun h c => (h ^^^ c.toUInt32) * 0x01000193) 0x811c9dc5

def skiptokenspace (s : S8) : S8 := s.dropWhile tokenspace

/-- The next token and what follows it; the token is empty at the end. -/
def nexttoken (s : S8) : S8 × S8 :=
  let s := skiptokenspace s
  (s.takeWhile (!tokenspace ·), s.dropWhile (!tokenspace ·))

structure Cut where
  head : S8
  tail : S8
  ok : Bool

def s8cut (s : S8) (delim : UInt8) : Cut :=
  let len := (s.takeWhile (· != delim)).length
  if len = s.length then ⟨s, s.drop s.length, false⟩
  else ⟨s.take len, s.drop (len + 1), true⟩

theorem s8cut_tail_lt {path : S8} (delim : UInt8) (h : path ≠ []) : (s8cut path delim).tail.length < path.length := by
  have := List.length_pos_iff.mpr h
  unfold s8cut
  simp only
  split <;> simp only [List.length_drop] <;> omega

/-! ## The path encoding -/

def pathencode (c : UInt8) : UInt8 :=
  match c with
  | 0x09 => 0xf8
  | 0x0a => 0xf9
  | 0x0d => 0xfa
  | 0x20 => 0xfb
  | 0x24 => 0xfc  -- $
  | 0x28 => 0xfd  -- (
  | 0x29 => 0xfe  -- )
  | c => c

def pathdecode (c : UInt8) : UInt8 :=
  match c with
  | 0xf8 => 0x09
  | 0xf9 => 0x0a
  | 0xfa => 0x0d
  | 0xfb => 0x20
  | 0xfc => 0x24
  | 0xfd => 0x28
  | 0xfe => 0x29
  | c => c

def s8pathencode (s : S8) : S8 :=
  if s.any (fun c => pathencode c != c) then s.map pathencode else s

theorem s8pathencode_eq_map (s : S8) : s8pathencode s = s.map pathencode := by
  unfold s8pathencode
  split
  · rfl
  · rename_i h
    simp only [List.any_eq_true, bne_iff_ne, ne_eq, not_exists, not_and, not_not] at h
    exact ((List.map_congr_left h).trans (List.map_id s)).symm

/-! ## Directories and package names -/

/-- Where `dirname` stops: the last separator below `len`, or 0. -/
def dirnamelen (path : S8) : Nat → Nat
  | 0 => 0
  | len + 1 => if pathsep (path.getD len 0) then len else dirnamelen path len

def dirname (path : S8) : S8 := path.take (dirnamelen path path.length)

/-- Where `basename` stops: just past the last separator below `len`, or 0. -/
def basenamelen (path : S8) : Nat → Nat
  | 0 => 0
  | len + 1 => if pathsep (path.getD len 0) then len + 1 else basenamelen path len

def basename (path : S8) : S8 := path.drop (basenamelen path path.length)

/-- `dir/pc.pc` with its null terminator. -/
def buildpath (dir pc : S8) : S8 := dir ++ S "/" ++ pc ++ S ".pc\x00"

def realnameispath (realname : S8) : Bool :=
  3 < realname.length && realname.drop (realname.length - 3) == S ".pc"

/-- The loop over the path's bytes: one past the last separator seen. -/
def baselen (path : S8) (i base : Nat) : Nat :=
  match path with
  | [] => base
  | c :: path => baselen path (i + 1) (if pathsep c then i + 1 else base)

def pathtorealname (path : S8) : S8 :=
  if !realnameispath path then path
  else
    let name := path.drop (baselen path 0 0)
    name.take (name.length - 3)

/-! ## Tokens -/

/-- A token that is not empty is taken off the input. -/
theorem nexttoken_tail_lt {s : S8} (h : (nexttoken s).1 ≠ []) : (nexttoken s).2.length < s.length := by
  have h1 : (skiptokenspace s).length ≤ s.length := (List.dropWhile_sublist _).length_le
  have h2 := congrArg List.length (List.takeWhile_append_dropWhile (p := (!tokenspace ·)) (l := skiptokenspace s))
  rw [List.length_append] at h2
  have h3 : 0 < ((skiptokenspace s).takeWhile (!tokenspace ·)).length := List.length_pos_iff.mpr h
  simp only [nexttoken]
  omega

end GnuWindows.PkgConfig
