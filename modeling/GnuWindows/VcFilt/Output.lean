/-
  GnuWindows.VcFilt.Output — the output buffer of vc++filt.c (`flushconsole`, `flush`,
  `writes8`, `writeu8`).

  A full buffer goes to the handle as one block: to a file as it is, to a console decoded
  from UTF-8 and converted in chunks of UTF-16. What the calls return is a parameter.

  Proved: a chunk fits in the array that it is converted in (`flushconsole_fits`), and
  without an error the chunks of a block are its conversion (`flushconsole_sent`).
-/
import GnuWindows.Lib.Cut
import GnuWindows.PkgConfig.Wide

namespace GnuWindows.VcFilt

open GnuWindows.Lib.Blocks (Device Buffer blocks feed feed_keeps feed_sent flatten_blocks)
open GnuWindows.Lib.Transcode (Codec)
open GnuWindows.PkgConfig (S8 S16 Utf8 utf8decode_ utf8decode_tail_lt utf16units)

def BUFFER_CAP : Nat := 1 <<< 14

def CONVERT_CAP : Nat := 1 <<< 10

/-! ## Decoding -/

/-- The decoder of pkg-config.c. -/
def utf8decode (s : S8) : Utf8 := utf8decode_ s

/-- The units stored; their number is the length returned. -/
def utf16encode (rune : Nat) : S16 := utf16units rune

/-- From UTF-8 to UTF-16, rune by rune. -/
def codec : Codec UInt8 UInt16 where
  decode s := ((utf8decode s).tail, (utf8decode s).rune)
  encode := utf16encode
  takes := utf8decode_tail_lt

/-- The UTF-16 form of a string that is decoded from its start to its end. -/
def utf16 (s : S8) : S16 := codec.converted s

/-! ## The handle -/

/-- What a buffer is written to, and what the calls return for a buffer after the earlier
    ones. -/
structure Handle where
  console : Bool
  writefile : List S8 → S8 → Bool
  writeconsole : List S16 → S16 → Bool

/-- What came of the calls. -/
structure Written where
  err : Bool
  /-- What `WriteFile` was called with, in order. -/
  files : List S8
  /-- What `WriteConsoleW` was called with, in order. -/
  consoles : List S16

section

variable (fd : Handle)

/-- The loop of `flushconsole`; `convert` is what has been stored in the array. -/
def converts (remain : S8) (convert : S16) (w : Written) : Written :=
  if _h : w.err = false ∧ remain ≠ [] then
    let r := utf8decode remain
    let convert := convert ++ utf16encode r.rune
    if CONVERT_CAP - 1 ≤ convert.length ∨ r.tail = [] then
      converts r.tail [] ⟨!fd.writeconsole w.consoles convert, w.files, w.consoles ++ [convert]⟩
    else converts r.tail convert w
  else w
termination_by remain.length
decreasing_by all_goals exact utf8decode_tail_lt _h.2

def flushconsole (block : S8) (w : Written) : Written := converts fd block [] w

/-- A block is written. -/
def flushblock (w : Written) (block : S8) : Written :=
  if fd.console then flushconsole fd block w
  else ⟨!fd.writefile w.files block, w.files ++ [block], w.consoles⟩

def device : Device Written UInt8 := ⟨BUFFER_CAP, by decide, flushblock fd, Written.err⟩

abbrev Bufout := Buffer (device fd)

def newbufout : Bufout fd := .empty ⟨false, [], []⟩

variable {fd}

def flush (b : Bufout fd) : Bufout fd := b.flush

/-- Fill the buffer, and flush it whenever it is full. -/
def writes8 (b : Bufout fd) (s : S8) : Bufout fd := b.put s

def writeu8 (b : Bufout fd) (c : UInt8) : Bufout fd := writes8 b [c]

end

/-! ## A block on the console -/

theorem length_utf16encode (rune : Nat) : (utf16encode rune).length ≤ 2 := by
  unfold utf16encode utf16units
  split
  · exact Nat.le_refl 2
  · exact Nat.le_succ 1

theorem utf16_nil : utf16 [] = [] := Codec.converted_nil

theorem utf16_cons {s : S8} (h : s ≠ []) : utf16 s = utf16encode (utf8decode s).rune ++ utf16 (utf8decode s).tail :=
  Codec.converted_cons h

/-- Every chunk that was written fits in the array. -/
def Written.Fits (w : Written) : Prop := ∀ u ∈ w.consoles, u.length ≤ CONVERT_CAP

variable {fd : Handle}

theorem converts_fits {remain : S8} {convert : S16} {w : Written} (hlt : convert.length < CONVERT_CAP - 1)
    (hw : w.Fits) :
    (converts fd remain convert w).Fits := by
  induction remain, convert, w using converts.induct fd with
  | case1 remain convert w h r units hfull ih =>
    rw [converts, dif_pos h]
    simp only
    rw [if_pos hfull]
    refine ih (by decide) fun u hu => ?_
    rcases List.mem_append.mp hu with hu | hu
    · exact hw u hu
    · obtain rfl := List.mem_singleton.mp hu
      have hrune := length_utf16encode r.rune
      show (convert ++ utf16encode r.rune).length ≤ CONVERT_CAP
      rw [List.length_append]
      omega
  | case2 remain convert w h r units hroom ih =>
    rw [converts, dif_pos h]
    simp only
    rw [if_neg hroom]
    exact ih (Nat.lt_of_not_le fun hle => hroom (Or.inl hle)) hw
  | case3 remain convert w h =>
    rw [converts, dif_neg h]
    exact hw

/-- Without an error, what is stored and what remains is written. -/
theorem converts_sent {remain : S8} {convert : S16} {w : Written} (hend : remain = [] → convert = [])
    (herr : (converts fd remain convert w).err = false) :
    (converts fd remain convert w).consoles.flatten = w.consoles.flatten ++ (convert ++ utf16 remain) := by
  induction remain, convert, w using converts.induct fd with
  | case1 remain convert w h r units hfull ih =>
    rw [converts, dif_pos h] at herr ⊢
    simp only at herr ⊢
    rw [if_pos hfull] at herr ⊢
    rw [ih (fun _ => rfl) herr, utf16_cons h.2]
    simp only [List.flatten_append, List.flatten_singleton, List.append_assoc, List.nil_append, units, r]
  | case2 remain convert w h r units hroom ih =>
    rw [converts, dif_pos h] at herr ⊢
    simp only at herr ⊢
    rw [if_neg hroom] at herr ⊢
    rw [ih (fun htail => absurd (Or.inr htail) hroom) herr, utf16_cons h.2]
    simp only [List.append_assoc, units, r]
  | case3 remain convert w h =>
    rw [converts, dif_neg h] at herr ⊢
    obtain rfl : remain = [] := not_not.mp fun hne => h ⟨herr, hne⟩
    rw [hend rfl, utf16_nil, List.append_nil, List.append_nil]

theorem flushconsole_fits {w : Written} (hw : w.Fits) (block : S8) : (flushconsole fd block w).Fits :=
  converts_fits (by decide) hw

theorem flushconsole_sent {w : Written} {block : S8} (herr : (flushconsole fd block w).err = false) :
    (flushconsole fd block w).consoles.flatten = w.consoles.flatten ++ utf16 block := converts_sent (fun _ => rfl) herr

/-! ## What is written of a text -/

/-- Several writes are one. -/
theorem foldl_writes8 (b : Bufout fd) (writes : List S8) : writes.foldl writes8 b = writes8 b writes.flatten := by
  induction writes generalizing b with
  | nil => exact (Buffer.put_nil b).symm
  | cons s writes ih =>
    rw [List.foldl_cons, ih, List.flatten_cons]
    exact (Buffer.put_append b s _).symm

/-- The blocks of a text are what is handed over. -/
theorem flush_writes8 (s : S8) :
    (flush (writes8 (newbufout fd) s)).dev = feed (device fd) ⟨false, [], []⟩ (blocks BUFFER_CAP s) :=
  Buffer.flush_put (Buffer.empty _) s

/-- To a file, a text is written as it is. -/
theorem files_text (hfd : fd.console = false) {s : S8} (herr : (flush (writes8 (newbufout fd) s)).dev.err = false) :
    (flush (writes8 (newbufout fd) s)).dev.files.flatten = s := by
  rw [flush_writes8] at herr ⊢
  have hblock : ∀ w b, flushblock fd w b = ⟨!fd.writefile w.files b, w.files ++ [b], w.consoles⟩ :=
    fun w b => if_neg (by rw [hfd]; exact Bool.false_ne_true)
  have hsent := feed_sent (D := device fd) (fun w => w.files.flatten) (fun b => b)
    (fun w b _ => by
      show (flushblock fd w b).files.flatten = _
      rw [hblock, List.flatten_append, List.flatten_singleton]) herr
  rw [hsent, List.flatMap_id', flatten_blocks (by decide)]
  rfl

/-- To a console, its blocks are converted one by one. -/
theorem consoles_text (hfd : fd.console = true) {s : S8} (herr : (flush (writes8 (newbufout fd) s)).dev.err = false) :
    (flush (writes8 (newbufout fd) s)).dev.consoles.flatten = (blocks BUFFER_CAP s).flatMap utf16 := by
  rw [flush_writes8] at herr ⊢
  have hblock : ∀ w b, flushblock fd w b = flushconsole fd b w := fun w b => if_pos hfd
  exact feed_sent (D := device fd) (fun w => w.consoles.flatten) utf16 (fun w b hw => by
    have hw : (flushblock fd w b).err = false := hw
    show (flushblock fd w b).consoles.flatten = _
    rw [hblock] at hw ⊢
    exact flushconsole_sent hw) herr

theorem converts_ok (h : ∀ chunks u, fd.writeconsole chunks u = true) {w : Written} (hw : w.err = false) (remain : S8)
    (convert : S16) : (converts fd remain convert w).err = false := by
  induction remain, convert, w using converts.induct fd with
  | case1 remain convert w hmore r units hfull ih =>
    rw [converts, dif_pos hmore]
    simp only
    rw [if_pos hfull]
    exact ih (by simp only [h, Bool.not_true])
  | case2 remain convert w hmore r units hroom ih =>
    rw [converts, dif_pos hmore]
    simp only
    rw [if_neg hroom]
    exact ih hw
  | case3 remain convert w hend =>
    rw [converts, dif_neg hend]
    exact hw

/-- Where every call succeeds there is no error. -/
theorem err_ok (hfile : ∀ chunks b, fd.writefile chunks b = true)
    (hconsole : ∀ chunks u, fd.writeconsole chunks u = true)
    (s : S8) : (flush (writes8 (newbufout fd) s)).dev.err = false := by
  rw [flush_writes8]
  refine feed_keeps (P := fun w : Written => w.err = false) (fun w b hw => ?_) rfl _
  show (flushblock fd w b).err = false
  unfold flushblock
  split
  · exact converts_ok hconsole hw b []
  · simp only [hfile, Bool.not_true]

/-- Every chunk fits, also when an error comes up. -/
theorem consoles_fit (s : S8) : (flush (writes8 (newbufout fd) s)).dev.Fits := by
  rw [flush_writes8]
  refine feed_keeps (fun w b hw => ?_) (fun u hu => nomatch hu) _
  show (flushblock fd w b).Fits
  unfold flushblock
  split
  · exact flushconsole_fits hw b
  · exact hw

end GnuWindows.VcFilt
