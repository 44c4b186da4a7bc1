/-
  GnuWindows.PkgConfig.Find — finding and loading one package.

  The platform's `os_mapfile` is a parameter, from paths (with their null terminator) to
  what it returns; the data of a file that was read is never null.
-/
import GnuWindows.PkgConfig.Expand
import GnuWindows.PkgConfig.Parse

namespace GnuWindows.PkgConfig

inductive Filemap where
  | ok (data : S8)
  | notfound
  | readerr

/-! ## The search path -/

structure Search where
  list : List S8
  delim : UInt8

def newsearch (delim : UInt8) : Search := ⟨[], delim⟩

/-- The directories of a path, in order; empty ones are left out. -/
def splitpath (path : S8) (delim : UInt8) : List S8 :=
  if _h : path = [] then []
  else
    let c := s8cut path delim
    (if c.head ≠ [] then [c.head] else []) ++ splitpath c.tail delim
termination_by path.length
decreasing_by exact s8cut_tail_lt _ _h

def appendpath (dirs : Search) (path : S8) : Search :=
  { dirs with list := dirs.list ++ splitpath path dirs.delim }

/-- With directories there already and none in `path` the transplant writes through the
    null tail pointer of an empty list: `none`. -/
def prependpath (dirs : Search) (path : S8) : Option Search :=
  if dirs.list = [] then some (appendpath dirs path)
  else
    let temp := appendpath (newsearch dirs.delim) path
    if temp.list = [] then none else some { dirs with list := temp.list ++ dirs.list }

/-! ## Reading -/

variable (mapfile : S8 → Filemap) (err : Errbuf)

def failread (realname path : S8) : Fail :=
  diagnose err (S "could not read package '" ++ realname ++ S "' from '" ++ path ++ S "'\n")

/-- The contents of a package; null when there is no file. -/
def readpackage (path realname : S8) : Except Fail (Option S8) :=
  if realname == S "pkg-config" then
    .ok (some (S "Name: u-config\nVersion: " ++ VERSION ++ S "\nDescription:\n"))
  else
    match mapfile path with
    | .notfound => .ok none
    | .readerr => .error (failread err realname path)
    | .ok data => .ok (some data)

/-- The loop over the directories: the path, without its null terminator, and the
    contents of the first file there is. -/
def searchdirs (realname : S8) : List S8 → S8 → Except Fail (S8 × Option S8)
  | [], path => .ok (path, none)
  | dir :: dirs, _ =>
    let path := buildpath dir realname
    match readpackage mapfile err path realname with
    | .error f => .error f
    | .ok (some contents) => .ok (path.dropLast, some contents)
    | .ok none => searchdirs realname dirs path.dropLast

def failfind (realname : S8) : Fail :=
  diagnose err (S "could not find package '" ++ realname ++ S "'\n")

/-- The path, the real name and the contents of a package. -/
def openpackage (dirs : Search) (realname : S8) : Except Fail (S8 × S8 × S8) := do
  -- a name that is a path is tried as one first
  let first ← if realnameispath realname then readpackage mapfile err (realname ++ [0]) realname else .ok none
  match first with
  | some contents => .ok (realname, pathtorealname realname, contents)
  | none =>
    let found ← searchdirs mapfile err realname dirs.list []
    match found.2 with
    | some contents => .ok (found.1, realname, contents)
    | none => .error (failfind err realname)

def faildupvariable (dupname path : S8) : Fail :=
  diagnose err (S "duplicate variable '" ++ dupname ++ S "' in '" ++ path ++ S "'\n")

def faildupfield (dupname path : S8) : Fail :=
  diagnose err (S "duplicate field '" ++ dupname ++ S "' in '" ++ path ++ S "'\n")

def failmissing (missing path : S8) : Fail :=
  diagnose err (S "missing field '" ++ missing ++ S "' in '" ++ path ++ S "'\n")

/-- The first required field that is null. -/
def missingfield (p : Pkg) : Option S8 :=
  if p.name.isNone then some (S "Name")
  else if p.version.isNone then some (S "Version")
  else if p.description.isNone then some (S "Description")
  else none

def findpackage (dirs : Search) (realname : S8) : Except Fail Pkg := do
  let (path, realname, contents) ← openpackage mapfile err dirs realname
  match parsepackage contents with
  | .dupvariable dupname => .error (faildupvariable err dupname path)
  | .dupfield dupname => .error (faildupfield err dupname path)
  | .ok pkg =>
    let pcfiledir := s8pathencode (dirname path)
    let pkg := { pkg with path := path, realname := realname, env := pkg.env.bind (S "pcfiledir") (some pcfiledir) }
    match missingfield pkg with
    | some missing => .error (failmissing err missing path)
    | none => .ok pkg

/-! ## Loading -/

/-- Bind `prefix` for a package in a `pkgconfig` directory. -/
def setprefix (p : Pkg) : Pkg :=
  let parent := dirname p.path
  if S "pkgconfig" == basename parent then
    { p with env := p.env.bind (S "prefix") (some (s8pathencode (dirname (dirname parent)))) }
  else p

variable (global : Env)

/-- Expand one field of `update` into `base`. -/
def expandfield (update base : Pkg) (i : Fin 10) : Except Fail Pkg :=
  let e := expand err global update (bytes (update.field i))
  match e.fail with
  | some f => .error f
  | none => .ok (base.setField i (some e.out))

/-- Merge and expand data from `update` into `base`. -/
def expandmerge (base update : Pkg) : Except Fail Pkg :=
  (List.finRange 10).foldlM (expandfield err global update)
    { base with path := update.path, contents := update.contents, env := update.env, flags := update.flags }

/-- Find and load a package that has not been loaded yet. -/
def loadpackage (dirs : Search) (define : Bool) (base : Pkg) (tok : S8) : Except Fail Pkg := do
  let newpkg ← findpackage mapfile err dirs tok
  expandmerge err global base (if define then setprefix newpkg else newpkg)

end GnuWindows.PkgConfig
