/-
  GnuWindows.PkgConfig.Uconfig — the program (`uconfig`): options, packages, output.

  The state of the part after the options is the buffer of stdout. A failure ends it;
  what a failing run had printed on that buffer stays there unwritten, unless the message
  goes to stdout too.

  `err` is chosen after the options are read. The processor was built before that and
  keeps the buffer of stderr.
-/
import GnuWindows.Lib.Hoare
import GnuWindows.PkgConfig.Buffer
import GnuWindows.PkgConfig.Options

namespace GnuWindows.PkgConfig

open GnuWindows.Lib.Hoare (Comp)

abbrev Uconfig := Comp U8buf Fail

def print (s : S8) : Uconfig Unit := Comp.step fun out => prints8 out s

/-- The buffer for messages, once the options are read. -/
def errbuf (st : Optstate) : Errbuf :=
  if st.silent then .null else if st.err_to_stdout then .stdout else .stderr

/-! ## The packages -/

def failnopackage (err : Errbuf) : Fail := diagnose err (S "requires at least one package name\n")

def checkcount (err : Errbuf) (pkgs : Pkgs) : Except Fail Unit :=
  if pkgs.count = 0 then .error (failnopackage err) else .ok ()

/-- `--{atleast,exact,max}-version`, for every package. -/
def checkversions (err : Errbuf) (op : Versop) (version : S8) (l : List Pkg) : Except Fail Unit :=
  if op = .ERR then .ok ()
  else
    l.forM fun p =>
      if validcompare op (compareversions (bytes p.version) version) then .ok ()
      else .error (failversion err p op version)

/-- The checks once all arguments are processed. -/
def checkall (st : Optstate) (proc : Processor) : Except Fail Unit := do
  endprocessor proc (errbuf st)
  checkcount (errbuf st) proc.pkgs
  checkversions (errbuf st) st.override_op st.override_version proc.pkgs.list

/-! ## The output -/

def printmodversion (st : Optstate) (l : List Pkg) : Uconfig Unit :=
  if st.modversion then
    l.forM fun p =>
      if p.flags.pkgDirect then do
        print (bytes p.version)
        print (S "\n")
      else pure ()
  else pure ()

/-- `expand` into the buffer of stdout; it keeps what was written before a failure. -/
def printexpanded (err : Errbuf) (global : Env) (p : Pkg) (str : S8) : Uconfig Unit := do
  print (expand err global p str).out
  match (expand err global p str).fail with
  | some f => throw f
  | none => pure ()

def printvariable (st : Optstate) (global : Env) (l : List Pkg) : Uconfig Unit :=
  match st.variable_ with
  | none => pure ()
  | some name =>
    l.forM fun p =>
      if p.flags.pkgDirect then
        match lookup global p.env name with
        | some value => do
          printexpanded (errbuf st) global p value
          print (S "\n")
        | none => pure ()
      else pure ()

/-- Write the arguments of the fields; `argcount` is how many were written before. -/
def printfields (fields : Except Fail Fieldwriter) (argcount : Nat) : Uconfig Nat := do
  let w ← Comp.ofExcept fields
  print (writeargs w argcount).1
  pure (writeargs w argcount).2

def cflagswriter (conf : Config) (st : Optstate) : Fieldwriter :=
  let fw := { newfieldwriter st.filterc with delim := st.argdelim, msvc := st.msvc }
  if st.print_sysinc then fw else insertsyspath fw conf.sys_incpath conf.delim 0x49

def appendcflags (err : Errbuf) (fw : Fieldwriter) (p : Pkg) : Except Fail Fieldwriter :=
  appendfield err fw p (bytes p.cflags)

def printcflags (conf : Config) (st : Optstate) (l : List Pkg) (argcount : Nat) : Uconfig Nat :=
  if st.cflags then printfields (l.foldlM (appendcflags (errbuf st)) (cflagswriter conf st)) argcount
  else pure argcount

def libswriter (conf : Config) (st : Optstate) : Fieldwriter :=
  let fw := { newfieldwriter st.filterl with delim := st.argdelim, msvc := st.msvc }
  if st.print_syslib then fw else insertsyspath fw conf.sys_libpath conf.delim 0x4c

def appendlibs (err : Errbuf) (static_ : Bool) (fw : Fieldwriter) (p : Pkg) : Except Fail Fieldwriter :=
  if static_ then do
    let fw ← appendfield err fw p (bytes p.libs)
    appendfield err fw p (bytes p.libsprivate)
  else if p.flags.pkgPublic then appendfield err fw p (bytes p.libs)
  else .ok fw

def printlibs (conf : Config) (st : Optstate) (l : List Pkg) (argcount : Nat) : Uconfig Nat :=
  if st.libs then printfields (l.foldlM (appendlibs (errbuf st) st.static_) (libswriter conf st)) argcount
  else pure argcount

def printnewline (st : Optstate) : Uconfig Unit :=
  if st.cflags || st.libs then print (S "\n") else pure ()

/-- What is printed about the packages. -/
def report (conf : Config) (st : Optstate) (proc : Processor) : Uconfig Unit := do
  printmodversion st proc.pkgs.list
  printvariable st proc.global proc.pkgs.list
  let argcount ← printcflags conf st proc.pkgs.list 0
  let _ ← printlibs conf st proc.pkgs.list argcount
  printnewline st
  Comp.step flush

/-! ## The run -/

/-- How a run ends: the buffer of stdout, and the failure that ended it. -/
structure Ended where
  out : U8buf
  result : Except Fail Unit

namespace Ended

/-- The strings written to fd 1, in order. -/
def stdout (e : Ended) : List S8 :=
  match e.result with
  | .ok _ => e.out.chunks
  | .error f => if f.err = .stdout then (flush (prints8 e.out f.text)).chunks else e.out.chunks

/-- The strings written to fd 2. -/
def stderr (e : Ended) : List S8 :=
  match e.result with
  | .ok _ => []
  | .error f => if f.err = .stderr then (flush (prints8 (newfdbuf 128 (by decide)) f.text)).chunks else []

/-- The exit status. -/
def status (e : Ended) : Nat :=
  match e.result with
  | .ok _ => 0
  | .error _ => 1

end Ended

def stdoutbuf : U8buf := newfdbuf 4096 (by decide)

/-- The checks and the output. -/
def conclude (conf : Config) (st : Optstate) (proc : Processor) : Uconfig Unit := do
  Comp.ofExcept (checkall st proc)
  report conf st proc

def afteroptions (mapfile : S8 → Filemap) (conf : Config) (st : Optstate) : Uconfig Unit := do
  let proc ← Comp.ofExcept (processargs mapfile st.proc st.args)
  conclude conf st proc

/-- A run; `none` when C gives it no meaning. -/
def uconfig (mapfile : S8 → Filemap) (conf : Config) : Option Ended :=
  match (optionloop (newoptions conf.args) (newoptstate conf)).2 with
  | .ok st =>
    let r := (afteroptions mapfile conf st).run stdoutbuf
    some ⟨r.2, r.1⟩
  | .error (.exit text) => some ⟨flush (prints8 stdoutbuf text), .ok ()⟩
  | .error (.fail f) => some ⟨stdoutbuf, .error f⟩
  | .error .outofbounds => none
  | .error .nullpointer => none

end GnuWindows.PkgConfig
