/-
  GnuWindows.Alias.Main — command line aliases (`append`, `findargs`, `getmoduledir`,
  `aliasmain` of alias.c).

  `EXE` and `CMD` are what the macros of these names are defined as. The system calls are
  parameters. A string is the units before its terminator; a buffer is what is stored in
  it, terminators included.
-/
import GnuWindows.PkgConfig.Wide

namespace GnuWindows.Alias

open GnuWindows.PkgConfig (S8 S16 S)

def MAX_PATH : Nat := 260

def MAX_CMDLINE : Nat := 1 <<< 15

structure C16buf where
  buf : S16
  cap : Nat
  err : Bool
  fits : buf.length ≤ cap

def newbuf (cap : Nat) : C16buf := ⟨[], cap, false, Nat.zero_le cap⟩

theorem C16buf.fits_cut (b : C16buf) (s : S16) :
    (b.buf ++ s.take (if b.cap - b.buf.length < s.length then b.cap - b.buf.length else s.length)).length ≤ b.cap := by
  have := b.fits
  rw [List.length_append, List.length_take]
  split <;> omega

/-- What does not fit is cut off, and is an error. -/
def append (b : C16buf) (s : S16) : C16buf :=
  let avail := b.cap - b.buf.length
  let count := if avail < s.length then avail else s.length
  { b with
    buf := b.buf ++ s.take count
    err := b.err || avail < s.length
    fits := b.fits_cut s }

/-! ## argv[0] -/

/-- After the closing quote, or at the end. -/
def endquoted : S16 → S16
  | [] => []
  | c :: s => if c = 0x22 then s else endquoted s

/-- At the first tab or space, or at the end. -/
def endunquoted : S16 → S16
  | [] => []
  | c :: s => if c = 0x09 ∨ c = 0x20 then c :: s else endunquoted s

/-- The end of `argv[0]`. -/
def findargs (s : S16) : S16 :=
  match s with
  | 0x22 :: s => endquoted s
  | s => endunquoted s

/-! ## The system -/

structure Win where
  /-- Whether there is memory. -/
  virtualalloc : Bool
  /-- What `GetModuleFileNameW` stores, of the length that it returns. -/
  modulefilename : S16
  /-- What `GetFullPathNameW` returns and stores, for a path and a capacity. -/
  fullpathname : S16 → Nat → Nat × S16
  commandline : S16
  /-- The exit code of the process, if it can be started. -/
  createprocess : S16 → S16 → Option UInt32

structure Outcome where
  ret : UInt32
  /-- What is written to standard error. -/
  stderr : S8
  /-- The path and the command line of each call of `CreateProcessW`. -/
  calls : List (S16 × S16)

def fatal (msg : S8) : Outcome := ⟨0x17e, S "w64devkit (alias): " ++ msg ++ S "\n", []⟩

/-- The string at the start of a buffer. -/
def cstring (buf : S16) : S16 := buf.takeWhile (· ≠ 0)

/-- A slash or a backslash. -/
def separator (c : UInt16) : Bool := c == 0x2f || c == 0x5c

/-- The path up to its last separator is appended, if it has one. -/
def getmoduledir (b : C16buf) (path : S16) : C16buf :=
  match path.reverse.dropWhile (!separator ·) with
  | [] => b
  | sep :: dir => append b (sep :: dir).reverse

/-- The path of the executable, with its terminator. -/
def exebuf (win : Win) (EXE : S16) : C16buf :=
  let LEXE := EXE ++ [0]
  let exe := newbuf (2 * MAX_PATH)
  let exe := if LEXE.getD 1 0 ≠ 0x3a then getmoduledir exe win.modulefilename else exe
  append exe LEXE

/-- The path with its relative components collapsed, where it starts with one and what
    comes of it fits. -/
def collapsed (win : Win) (EXE buf : S16) : S16 :=
  if EXE.head? = some 0x2e then
    let tmp := win.fullpathname (cstring buf) MAX_PATH
    if 0 < tmp.1 ∧ tmp.1 < MAX_PATH then tmp.2 else buf
  else buf

/-- The new command line, with its terminator. -/
def cmdbuf (win : Win) (CMD : S16) : C16buf :=
  append (append (newbuf MAX_CMDLINE) CMD) (findargs win.commandline ++ [0])

def aliasmain (win : Win) (EXE CMD : S16) : Outcome :=
  if !win.virtualalloc then fatal (S "out of memory")
  else
    let exe := exebuf win EXE
    if exe.err then fatal (S ".exe path too long")
    else
      let path := cstring (collapsed win EXE exe.buf)
      let cmd := cmdbuf win CMD
      if cmd.err then fatal (S "command line too long")
      else
        let call := (path, cstring cmd.buf)
        match win.createprocess call.1 call.2 with
        | none => { fatal (S "could not start process\n") with calls := [call] }
        | some ret => ⟨ret, [], [call]⟩

end GnuWindows.Alias
