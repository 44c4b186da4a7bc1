/-
  GnuWindows.PkgConfig.Platform — the win32 platform layer (`os_mapfile`, `os_write`,
  `mainCRTStartup` and what they use).

  The system is a parameter: what its calls give. A handle, and what was written to it, are
  as for vc++filt. The arena is what a file or a path may fill; there is always memory for
  the rest.

  A file is read into all that is left of the arena. A console gets UTF-16, at most 256
  units in a call; once a call fails nothing more is written to that handle.
-/
import GnuWindows.Lib.Transfer
import GnuWindows.PkgConfig.Cmdline
import GnuWindows.PkgConfig.Uconfig
import GnuWindows.PkgConfig.WideProofs
import GnuWindows.VcFilt.Output

namespace GnuWindows.PkgConfig

open GnuWindows.Lib.Transfer (Source collect)
open GnuWindows.VcFilt (Handle length_utf16encode)

/-! ## Wide strings -/

theorem towide_isSome (s : S8) : (towide_ s).isSome := by rw [towide_, towide.convert_eq]; rfl

theorem fromwide_isSome (w : S16) : (fromwide_ w).isSome := by rw [fromwide_, fromwide.convert_eq]; rfl

/-- What `towide_` gives, which it always does. -/
def wide (s : S8) : S16 := (towide_ s).get (towide_isSome s)

def narrow (w : S16) : S8 := (fromwide_ w).get (fromwide_isSome w)

/-- The `L` of a string literal, which is ASCII. -/
def L (s : String) : S16 := (S s).map UInt8.toUInt16

/-! ## Files -/

/-- What `CreateFileW` and `ReadFile` give; `H` is an open file and how far it was read. -/
structure Files (H : Type) where
  createfile : S16 → Option H
  readfile : Source H UInt8

def truncsize (len : Nat) : Nat := if 0x7fffffff < len then 0x7fffffff else len

variable {H : Type}

/-- What is mapped, and how much of the arena it takes; `cap` is what is left of that. -/
def os_mapfile (files : Files H) (cap : Nat) (path : S8) : Filemap × Nat :=
  match files.createfile (wide path) with
  | none => (.notfound, 0)
  | some handle =>
    let data := (collect files.readfile truncsize cap handle).1
    if data.length = cap then (.readerr, 0)  -- as if the file were too large
    else (.ok data, data.length)

/-! ## Output -/

/-- `u16buf`: the units up to `len`, and the calls of `WriteConsoleW`. -/
structure U16buf where
  buf : S16
  err : Bool
  calls : List S16
  fits : buf.length ≤ 0x100

section

variable (fd : Handle)

def flushconsole_ (b : U16buf) : U16buf :=
  if b.err = false ∧ b.buf ≠ [] then
    ⟨[], !fd.writeconsole b.calls b.buf, b.calls ++ [b.buf], Nat.zero_le _⟩
  else ⟨[], b.err, b.calls, Nat.zero_le _⟩

theorem length_utf16encode_ (rune : Int) : (utf16encode_ rune).length ≤ 2 := length_utf16encode _

theorem flushconsole_room (b : U16buf) : (flushconsole_ fd b).buf = [] := by
  unfold flushconsole_
  split <;> rfl

/-- The units of a rune stay together. -/
def printc32_ (b : U16buf) (rune : Nat) : U16buf :=
  if h : 0x100 - 2 < b.buf.length then
    ⟨(flushconsole_ fd b).buf ++ utf16encode_ rune, (flushconsole_ fd b).err, (flushconsole_ fd b).calls, by
      have := length_utf16encode_ rune
      rw [flushconsole_room, List.nil_append]
      omega⟩
  else
    ⟨b.buf ++ utf16encode_ rune, b.err, b.calls, by
      have := length_utf16encode_ rune
      rw [List.length_append]
      omega⟩

/-- The loop of `os_write`. -/
def printrunes (tail : S8) (b : U16buf) : U16buf :=
  if _h : tail ≠ [] then printrunes (utf8decode_ tail).tail (printc32_ fd b (utf8decode_ tail).rune) else b
termination_by tail.length
decreasing_by exact utf8decode_tail_lt _h

/-- A string is written to a handle; `w.err` is `handles[fd].err`. -/
def os_write (w : VcFilt.Written) (s : S8) : VcFilt.Written :=
  if w.err then w
  else if fd.console then
    let b := flushconsole_ fd (printrunes fd s ⟨[], false, w.consoles, Nat.zero_le _⟩)
    ⟨b.err, w.files, b.calls⟩
  else ⟨!fd.writefile w.files s, w.files ++ [s], w.consoles⟩

end

/-! ## The configuration -/

structure System (H : Type) where
  /-- `GetCommandLineW`, up to its terminator. -/
  commandline : S16
  /-- What `GetModuleFileNameW` stores in a buffer of so many units. -/
  modulefilename : Nat → S16
  /-- What `GetEnvironmentVariableW` stores; nothing for a variable that is not set. -/
  environment : S16 → Option S16
  files : Files H
  stdout : Handle
  stderr : Handle
  /-- What is left of the arena for the module's path. -/
  free : Nat
  /-- What is left of it for a file. -/
  room : S8 → Nat

/-- Null for a variable that is not set; an empty one is not null. -/
def fromenv_ (environment : S16 → Option S16) (name : S16) : Option S8 := (environment name).map narrow

def installdir_ (modulefilename : Nat → S16) (free : Nat) : S8 :=
  let exe := modulefilename (truncsize free / 2)
  dirname (dirname (narrow (exe.map fun u => if u = 0x5c then 0x2f else u)))

def append2_ (pre suf : S8) : S8 := pre ++ suf

def makepath_ (base lib share : S8) : S8 := base ++ lib ++ S ";" ++ base ++ share

/-- What `mainCRTStartup` makes of the system: pointers have `ptr` bytes, and the build says
    what `PKG_CONFIG_PREFIX` is. -/
def startconfig (ptr : Nat) (PKG_CONFIG_PREFIX : S8) (sys : System H) : Option Config :=
  (cmdline_to_argv8 ptr sys.commandline).map fun r =>
    let base := installdir_ sys.modulefilename sys.free
    { args := (strings 0 r.argv r.mem).tail
      envpath := bytes (fromenv_ sys.environment (L "PKG_CONFIG_PATH"))
      fixedpath :=
        match fromenv_ sys.environment (L "PKG_CONFIG_LIBDIR") with
        | some path => path
        | none => makepath_ base (PKG_CONFIG_PREFIX ++ S "/lib/pkgconfig") (PKG_CONFIG_PREFIX ++ S "/share/pkgconfig")
      top_builddir := fromenv_ sys.environment (L "PKG_CONFIG_TOP_BUILD_DIR")
      sys_incpath := append2_ base (PKG_CONFIG_PREFIX ++ S "/include")
      sys_libpath := append2_ base (PKG_CONFIG_PREFIX ++ S "/lib")
      print_sysinc := fromenv_ sys.environment (L "PKG_CONFIG_ALLOW_SYSTEM_CFLAGS")
      print_syslib := fromenv_ sys.environment (L "PKG_CONFIG_ALLOW_SYSTEM_LIBS")
      define_prefix := true
      delim := 0x3b }

/-! ## The program -/

/-- How the process ends, and what it has written. -/
structure Exited where
  code : Nat
  stdout : VcFilt.Written
  stderr : VcFilt.Written

/-- Nothing is written yet. -/
def unwritten : VcFilt.Written := ⟨false, [], []⟩

/-- The calls of `os_write` that `uconfig` makes, and the exit: `os_fail` after a failure. -/
def exitprocess (sys : System H) (e : Ended) : Exited :=
  let stdout := e.stdout.foldl (os_write sys.stdout) unwritten
  let stderr := e.stderr.foldl (os_write sys.stderr) unwritten
  ⟨match e.result with
    | .ok _ => if stdout.err || stderr.err then 1 else 0
    | .error _ => 1, stdout, stderr⟩

/-- The files of a system, as `uconfig` sees them. -/
def System.mapfile (sys : System H) (path : S8) : Filemap := (os_mapfile sys.files (sys.room path) path).1

def mainCRTStartup (ptr : Nat) (PKG_CONFIG_PREFIX : S8) (sys : System H) : Option Exited :=
  match startconfig ptr PKG_CONFIG_PREFIX sys with
  | none => none
  | some conf => (uconfig sys.mapfile conf).map (exitprocess sys)

end GnuWindows.PkgConfig
