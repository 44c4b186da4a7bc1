/-
  GnuWindows.PkgConfig.Package — packages (`pkg`), their ten fields, and how a run fails.

  A failure site prints its message on the `u8buf` it was given, flushes it and exits.
  `Fail` is that message, which begins like every other, with the buffer it went to; a
  function that may fail returns `Except Fail`.
-/
import GnuWindows.PkgConfig.Env

namespace GnuWindows.PkgConfig

/-- The buffer an `err` argument points to: stderr's, stdout's (`err = out`), or the null
    one (`newnullout`). -/
inductive Errbuf where
  | stderr
  | stdout
  | null
  deriving DecidableEq

structure Fail where
  err : Errbuf
  text : S8
  diagnostic : S "pkg-config: " <+: text
  deriving DecidableEq

def diagnose (err : Errbuf) (message : S8) : Fail := ⟨err, S "pkg-config: " ++ message, List.prefix_append _ _⟩

/-- `pkg_DIRECT` and `pkg_PUBLIC`. -/
structure Flags where
  pkgDirect : Bool
  pkgPublic : Bool
  deriving DecidableEq

def Flags.none : Flags := ⟨false, false⟩

/-- `a | b`. -/
def Flags.or (a b : Flags) : Flags := ⟨a.pkgDirect || b.pkgDirect, a.pkgPublic || b.pkgPublic⟩

/-- The bytes of a slice that may be null: a null slice has length 0. -/
def bytes (s : Option S8) : S8 := s.getD []

@[simp] theorem bytes_some (s : S8) : bytes (some s) = s := rfl
@[simp] theorem bytes_none : bytes none = [] := rfl

structure Pkg where
  path : S8
  realname : S8
  /-- The file's bytes; null until the package is loaded. -/
  contents : Option S8
  env : Env
  flags : Flags
  /-- The fields `name` to `cflags`, by index (`fieldbyid`). -/
  field : Fin 10 → Option S8

namespace Pkg

/-- Zero-initialized. -/
def zero : Pkg := ⟨[], [], none, Env.empty, Flags.none, fun _ => none⟩

def name (p : Pkg) : Option S8 := p.field 0
def description (p : Pkg) : Option S8 := p.field 1
def version (p : Pkg) : Option S8 := p.field 3
def requires (p : Pkg) : Option S8 := p.field 4
def requiresprivate (p : Pkg) : Option S8 := p.field 5
def libs (p : Pkg) : Option S8 := p.field 7
def libsprivate (p : Pkg) : Option S8 := p.field 8
def cflags (p : Pkg) : Option S8 := p.field 9

def setField (p : Pkg) (i : Fin 10) (value : Option S8) : Pkg :=
  { p with field := fun j => if j = i then value else p.field j }

end Pkg

def fieldnames : Fin 10 → S8
  | 0 => S "Name"
  | 1 => S "Description"
  | 2 => S "URL"
  | 3 => S "Version"
  | 4 => S "Requires"
  | 5 => S "Requires.private"
  | 6 => S "Conflicts"
  | 7 => S "Libs"
  | 8 => S "Libs.private"
  | 9 => S "Cflags"

/-- The first field of that name. -/
def fieldbyname (name : S8) : Option (Fin 10) :=
  (List.finRange 10).find? fun i => fieldnames i == name

end GnuWindows.PkgConfig
