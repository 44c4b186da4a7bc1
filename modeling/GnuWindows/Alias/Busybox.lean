/-
  GnuWindows.Alias.Busybox — the alias of a busybox command (`append`, `getmoduledir`,
  `run` of busybox-alias.c).

  It is alias.c without macros: the target is always the `busybox.exe` next to it, with the
  command line as it is. The buffer for the path is smaller, and the directory is taken
  without its separator.
-/
import GnuWindows.Alias.Main

namespace GnuWindows.Alias.Busybox

open GnuWindows.PkgConfig (S8 S16 S)

/-- What does not fit is cut off, and is an error. -/
def append (b : C16buf) (buf : S16) : C16buf :=
  let avail := b.cap - b.buf.length
  let count := if avail < buf.length then avail else buf.length
  { b with
    buf := b.buf ++ buf.take count
    err := b.err || count < buf.length
    fits := b.fits_cut buf }

/-- The path up to its last separator is appended, without it, if it has one. -/
def getmoduledir (b : C16buf) (path : S16) : C16buf :=
  match path.reverse.dropWhile (!separator ·) with
  | [] => b
  | _ :: dir => append b dir.reverse

def fatal (msg : S8) : Outcome := ⟨0x17e, msg, []⟩

/-- `\busybox.exe` -/
def busybox : S16 := [0x5c, 0x62, 0x75, 0x73, 0x79, 0x62, 0x6f, 0x78, 0x2e, 0x65, 0x78, 0x65]

/-- The path of the executable, with its terminator. -/
def exebuf (win : Win) : C16buf := append (getmoduledir (newbuf MAX_PATH) win.modulefilename) (busybox ++ [0])

def run (win : Win) : Outcome :=
  let exe := exebuf win
  if exe.err then fatal (S "w64devkit: busybox.exe path too long\n")
  else
    let call := (cstring exe.buf, win.commandline)
    match win.createprocess call.1 call.2 with
    | none => { fatal (S "w64devkit: could not start busybox.exe\n") with calls := [call] }
    | some ret => ⟨ret, [], [call]⟩

/-- The same `append` as in alias.c: fewer units than given are stored when fewer fit. -/
theorem append_eq (b : C16buf) (s : S16) : append b s = Alias.append b s := by
  have hcut (avail : Nat) : (if avail < s.length then avail else s.length) < s.length ↔ avail < s.length := by
    split <;> omega
  simp only [append, Alias.append, hcut]

end GnuWindows.Alias.Busybox
