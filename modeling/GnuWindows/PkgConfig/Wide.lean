/-
  GnuWindows.PkgConfig.Wide — UTF-8 and UTF-16 in the win32 platform layer (`utf8decode_`,
  `utf8encode_`, `utf16decode_`, `utf16encode_`, `towide_`, `fromwide_`).

  A decoder reads one rune off a string that is not empty; what it rejects costs one
  element and gives U+FFFD. Both conversions decode twice, in loops that differ in the
  decoder and the encoder only: once to count, then into memory of that size.
-/
import GnuWindows.Lib.Transcode
import GnuWindows.PkgConfig.Bytes

namespace GnuWindows.PkgConfig

open GnuWindows.Lib.Transcode (Codec)

abbrev S16 := List UInt16

def REPLACEMENT_CHARACTER : Nat := 0xfffd

/-! ## UTF-8 -/

/-- A rune, which no decoder makes negative, and what follows it. -/
structure Utf8 where
  tail : S8
  rune : Nat
  deriving DecidableEq

def utf8decode_ (s : S8) : Utf8 :=
  let reject : Utf8 := ⟨s.drop 1, REPLACEMENT_CHARACTER⟩
  match s with
  | [] => reject  -- asserted not to be
  | b :: s =>
    if b.toNat &&& 0xf0 = 0xc0 ∨ b.toNat &&& 0xf0 = 0xd0 then
      match s with
      | b1 :: tail =>
        if b1.toNat &&& 0xc0 ≠ 0x80 then reject
        else
          let rune := (b.toNat &&& 0x1f) <<< 6 ||| (b1.toNat &&& 0x3f)
          if rune < 0x80 then reject else ⟨tail, rune⟩
      | _ => reject
    else if b.toNat &&& 0xf0 = 0xe0 then
      match s with
      | b1 :: b2 :: tail =>
        if b1.toNat &&& 0xc0 ≠ 0x80 then reject
        else if b2.toNat &&& 0xc0 ≠ 0x80 then reject
        else
          let rune := (b.toNat &&& 0x0f) <<< 12 ||| (b1.toNat &&& 0x3f) <<< 6 ||| (b2.toNat &&& 0x3f)
          if rune < 0x800 then reject else if 0xd800 ≤ rune ∧ rune ≤ 0xdfff then reject else ⟨tail, rune⟩
      | _ => reject
    else if b.toNat &&& 0xf0 = 0xf0 then
      match s with
      | b1 :: b2 :: b3 :: tail =>
        if b1.toNat &&& 0xc0 ≠ 0x80 then reject
        else if b2.toNat &&& 0xc0 ≠ 0x80 then reject
        else if b3.toNat &&& 0xc0 ≠ 0x80 then reject
        else
          let rune := (b.toNat &&& 0x0f) <<< 18 ||| (b1.toNat &&& 0x3f) <<< 12 ||| (b2.toNat &&& 0x3f) <<< 6 |||
            (b3.toNat &&& 0x3f)
          if rune < 0x10000 then reject else if 0x10ffff < rune then reject else ⟨tail, rune⟩
      | _ => reject
    else if 0x7f < b.toNat then reject
    else ⟨s, b.toNat⟩

/-- A code point in one to four bytes. -/
def utf8bytes (c : Nat) : S8 :=
  if c < 0x80 then [UInt8.ofNat c]
  else if c < 0x800 then [UInt8.ofNat (0xc0 ||| c >>> 6), UInt8.ofNat (0x80 ||| (c &&& 63))]
  else if c < 0x10000 then
    [UInt8.ofNat (0xe0 ||| c >>> 12), UInt8.ofNat (0x80 ||| (c >>> 6 &&& 63)), UInt8.ofNat (0x80 ||| (c &&& 63))]
  else
    [UInt8.ofNat (0xf0 ||| c >>> 18), UInt8.ofNat (0x80 ||| (c >>> 12 &&& 63)),
      UInt8.ofNat (0x80 ||| (c >>> 6 &&& 63)), UInt8.ofNat (0x80 ||| (c &&& 63))]

/-- A rune that an encoder writes as it is. -/
def encodable (rune : Int) : Bool := !(rune < 0 || (0xd800 ≤ rune && rune ≤ 0xdfff) || 0x10ffff < rune)

/-- The bytes written; their number is the length returned. -/
def utf8encode_ (rune : Int) : S8 := utf8bytes (if encodable rune then rune.toNat else REPLACEMENT_CHARACTER)

/-! ## UTF-16 -/

structure Utf16 where
  tail : S16
  rune : Nat
  deriving DecidableEq

def utf16decode_ (s : S16) : Utf16 :=
  let reject : Utf16 := ⟨s.drop 1, REPLACEMENT_CHARACTER⟩
  match s with
  | [] => reject  -- asserted not to be
  | hi :: s =>
    if 0xdc00 ≤ hi.toNat ∧ hi.toNat ≤ 0xdfff then reject  -- unpaired low surrogate
    else if 0xd800 ≤ hi.toNat ∧ hi.toNat ≤ 0xdbff then
      match s with
      | lo :: tail =>
        if lo.toNat < 0xdc00 ∨ 0xdfff < lo.toNat then reject  -- expected low surrogate
        else ⟨tail, 0x10000 + (hi.toNat - 0xd800) <<< 10 + (lo.toNat - 0xdc00)⟩
      | [] => reject  -- missing low surrogate
    else ⟨s, hi.toNat⟩

/-- A code point in one or two units. -/
def utf16units (c : Nat) : S16 :=
  if 0x10000 ≤ c then
    [UInt16.ofNat ((c - 0x10000) >>> 10 + 0xd800), UInt16.ofNat ((c - 0x10000 &&& 0x3ff) + 0xdc00)]
  else [UInt16.ofNat c]

def utf16encode_ (rune : Int) : S16 := utf16units (if encodable rune then rune.toNat else REPLACEMENT_CHARACTER)

/-! ## Conversions -/

/-- A decoder always takes something. -/
theorem utf8decode_tail_lt {s : S8} (h : s ≠ []) : (utf8decode_ s).tail.length < s.length := by
  cases s with
  | nil => exact absurd rfl h
  | cons b s =>
    simp only [utf8decode_, List.drop_succ_cons, List.drop_zero, List.length_cons]
    repeat' split
    all_goals simp only [List.length_cons]; omega

theorem utf16decode_tail_lt {s : S16} (h : s ≠ []) : (utf16decode_ s).tail.length < s.length := by
  cases s with
  | nil => exact absurd rfl h
  | cons u s =>
    simp only [utf16decode_, List.drop_succ_cons, List.drop_zero, List.length_cons]
    repeat' split
    all_goals simp only [List.length_cons, List.length_nil]; omega

/-- The conversion of `towide_`. -/
def towide : Codec UInt8 UInt16 where
  decode s := ((utf8decode_ s).tail, (utf8decode_ s).rune)
  encode rune := utf16encode_ rune
  takes := utf8decode_tail_lt

/-- The conversion of `fromwide_`. -/
def fromwide : Codec UInt16 UInt8 where
  decode s := ((utf16decode_ s).tail, (utf16decode_ s).rune)
  encode rune := utf8encode_ rune
  takes := utf16decode_tail_lt

def towide_ (s : S8) : Option S16 := towide.convert s

def fromwide_ (w : S16) : Option S8 := fromwide.convert w

end GnuWindows.PkgConfig
