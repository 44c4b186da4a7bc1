/-
  GnuWindows.PkgConfig.Options — reading the command line (`nextoption`, `getargopt` and
  the option loop of `uconfig`).

  Every read of `args` goes through `args[index++]`, and the reader keeps the indices it
  has read. A read past the end is the outcome `outofbounds`, a write through a null
  pointer the outcome `nullpointer`: C gives neither a meaning.

  The chain of `if`s on the option's name is a table. An entry says what the option does
  to the locals of `uconfig`, and whether it takes a value, which is what follows the `=`
  or else the next argument.
-/
import GnuWindows.PkgConfig.Args
import GnuWindows.PkgConfig.Process

namespace GnuWindows.PkgConfig

/-- How the option loop ends a run. -/
inductive Halt where
  /-- `uconfig` returns, with this printed. -/
  | exit (text : S8)
  | fail (f : Fail)
  | outofbounds
  | nullpointer

/-! ## Reading arguments -/

structure Options where
  args : List S8
  index : Nat
  dashdash : Bool
  /-- The indices read so far, in order. -/
  reads : List Nat

def newoptions (args : List S8) : Options := ⟨args, 0, false, []⟩

namespace Options

/-- `index++`, with the read of that index. -/
def advance (p : Options) : Options := { p with index := p.index + 1, reads := p.reads ++ [p.index] }

/-- `args[index++]`. -/
def readarg (p : Options) : Options × Except Halt S8 :=
  (p.advance,
    match p.args[p.index]? with
    | some arg => .ok arg
    | none => .error .outofbounds)

/-- The arguments not read yet. -/
def rest (p : Options) : List S8 := p.args.drop p.index

theorem advance_rest {p : Options} {arg : S8} {args : List S8} (h : p.rest = arg :: args) : p.advance.rest = args := by
  rw [rest, advance, ← List.drop_drop, ← rest, h]
  rfl

theorem readarg_cons {p : Options} {arg : S8} {args : List S8} (h : p.rest = arg :: args) :
    p.readarg = (p.advance, .ok arg) := by
  have : p.args[p.index]? = some arg := by rw [← List.head?_drop, ← rest, h]; rfl
  rw [readarg, this]

theorem readarg_nil {p : Options} (h : p.rest = []) : p.readarg = (p.advance, .error .outofbounds) := by
  have : p.args[p.index]? = none := by rw [← List.head?_drop, ← rest, h]; rfl
  rw [readarg, this]

theorem readarg_ok {p q : Options} {arg : S8} (h : p.readarg = (q, .ok arg)) :
    q = p.advance ∧ p.rest = arg :: q.rest := by
  cases hp : p.rest with
  | nil => rw [readarg_nil hp] at h; cases h
  | cons arg' args => rw [readarg_cons hp] at h; cases h; exact ⟨rfl, by rw [advance_rest hp]⟩

end Options

structure Optresult where
  arg : S8
  value : Option S8
  isoption : Bool
  ok : Bool

/-- An argument that starts with `-`, split at its first `=`. -/
def optresult (arg : S8) : Optresult :=
  let arg := arg.drop 1
  let c := s8cut arg 0x3d
  if c.ok then ⟨c.head, some c.tail, true, true⟩ else ⟨arg, none, true, true⟩

/-- The loop of `nextoption`. -/
def nextloop (p : Options) : Options × Except Halt Optresult :=
  match _h : p.readarg with
  | (q, .error e) => (q, .error e)
  | (q, .ok arg) =>
    if p.dashdash || arg.length < 2 || arg.head? != some 0x2d then (q, .ok ⟨arg, none, false, true⟩)
    else if !p.dashdash && arg == S "--" then nextloop { q with dashdash := true }
    else (q, .ok (optresult arg))
termination_by p.rest.length
decreasing_by
  have h := (Options.readarg_ok _h).2
  exact h ▸ Nat.lt_succ_self _

def nextoption (p : Options) : Options × Except Halt Optresult :=
  if p.index = p.args.length then (p, .ok ⟨[], none, false, false⟩) else nextloop p

def failargument (err : Errbuf) (option : S8) : Fail :=
  diagnose err (S "argument missing for -" ++ option ++ S "\n")

def getargopt (err : Errbuf) (p : Options) (option : S8) : Options × Except Halt S8 :=
  if p.index = p.args.length then (p, .error (.fail (failargument err option))) else p.readarg

/-! ## What the options do -/

/-- The loop over the digits of `parseuint`. -/
def parseuintloop (hi : Nat) : S8 → Nat → Nat
  | [], v => v
  | c :: s, v =>
    if digit c then
      let v := v * 10 + (c.toNat - 0x30)
      if hi ≤ v then hi else parseuintloop hi s v
    else parseuintloop hi s v

def parseuint (s : S8) (hi : Nat) : Nat := parseuintloop hi s 0

/-- The locals of `uconfig` that the options set; `global` is the processor's. -/
structure Optstate where
  filterc : Filter
  filterl : Filter
  proc : Processor
  msvc : Bool
  libs : Bool
  cflags : Bool
  err_to_stdout : Bool
  silent : Bool
  static_ : Bool
  argdelim : UInt8
  modversion : Bool
  override_op : Versop
  override_version : S8
  print_sysinc : Bool
  print_syslib : Bool
  variable_ : Option S8
  args : List S8

/-- The global bindings before the options are read. -/
def newglobal (conf : Config) : Env :=
  let top_builddir :=
    match conf.top_builddir with
    | some dir => s8pathencode dir
    | none => S "$(top_builddir)"
  let global := Env.empty
  let global := global.bind (S "pc_path") (some conf.fixedpath)
  let global := global.bind (S "pc_system_includedirs") (some conf.sys_incpath)
  let global := global.bind (S "pc_system_libdirs") (some conf.sys_libpath)
  let global := global.bind (S "pc_sysrootdir") (some (S "/"))
  global.bind (S "pc_top_builddir") (some top_builddir)

def newoptstate (conf : Config) : Optstate where
  filterc := .any
  filterl := .any
  proc := { newprocessor conf .stderr (newglobal conf) with define_prefix := conf.define_prefix }
  msvc := false
  libs := false
  cflags := false
  err_to_stdout := false
  silent := false
  static_ := false
  argdelim := 0x20
  modversion := false
  override_op := .ERR
  override_version := []
  print_sysinc := conf.print_sysinc.isSome
  print_syslib := conf.print_syslib.isSome
  variable_ := none
  args := []

def usage : S8 :=
  S "u-config " ++ VERSION ++ S " https://github.com/skeeto/u-config\n" ++
  S "free and unencumbered software released into the public domain\n" ++
  S "usage: pkg-config [OPTIONS...] [PACKAGES...]\n" ++
  S "  --cflags, --cflags-only-I, --cflags-only-other\n" ++
  S "  --define-prefix, --dont-define-prefix\n" ++
  S "  --define-variable=NAME=VALUE, --variable=NAME\n" ++
  S "  --exists, --validate, --\x7batleast,exact,max\x7d-version=VERSION\n" ++
  S "  --errors-to-stdout\n" ++
  S "  --keep-system-cflags, --keep-system-libs\n" ++
  S "  --libs, --libs-only-L, --libs-only-l, --libs-only-other\n" ++
  S "  --maximum-traverse-depth=N\n" ++
  S "  --modversion\n" ++
  S "  --msvc-syntax\n" ++
  S "  --newlines\n" ++
  S "  --silence-errors\n" ++
  S "  --static\n" ++
  S "  --with-path=PATH\n" ++
  S "  -h, --help, --version\n" ++
  S "environment:\n" ++
  S "  PKG_CONFIG_PATH\n" ++
  S "  PKG_CONFIG_LIBDIR\n" ++
  S "  PKG_CONFIG_TOP_BUILD_DIR\n" ++
  S "  PKG_CONFIG_SYSTEM_INCLUDE_PATH\n" ++
  S "  PKG_CONFIG_SYSTEM_LIBRARY_PATH\n" ++
  S "  PKG_CONFIG_ALLOW_SYSTEM_CFLAGS\n" ++
  S "  PKG_CONFIG_ALLOW_SYSTEM_LIBS\n"

def faildefine (err : Errbuf) (value : S8) : Fail :=
  diagnose err (S "value missing in --define-variable for '" ++ value ++ S "'\n")

def failunknown (err : Errbuf) (option : S8) : Fail :=
  diagnose err (S "unknown option -" ++ option ++ S "\n")

inductive Optaction where
  | flag (f : Optstate → Optstate)
  | value (f : S8 → Optstate → Except Halt Optstate)
  | exit (text : S8)

/-- `--with-path`. -/
def withpath (value : S8) (st : Optstate) : Except Halt Optstate :=
  match prependpath st.proc.search value with
  | some search => .ok { st with proc := { st.proc with search := search } }
  | none => .error .nullpointer

/-- `--define-variable`. -/
def definevariable (value : S8) (st : Optstate) : Except Halt Optstate :=
  let c := s8cut value 0x3d
  if c.ok then .ok { st with proc := { st.proc with global := st.proc.global.bind c.head (some c.tail) } }
  else .error (.fail (faildefine .stderr value))

/-- `--atleast-version`, `--exact-version` and `--max-version`. -/
def overrideversion (op : Versop) (value : S8) (st : Optstate) : Except Halt Optstate :=
  .ok
    { st with
      override_op := op
      override_version := value
      silent := true
      proc := { st.proc with recursive := false, ignore_versions := true } }

def optiontable : List (S8 × Optaction) := [
  (S "h", .exit usage),
  (S "-help", .exit usage),
  (S "-version", .exit (VERSION ++ S "\n")),
  (S "-modversion", .flag fun st => { st with modversion := true }),
  (S "-define-prefix", .flag fun st => { st with proc := { st.proc with define_prefix := true } }),
  (S "-dont-define-prefix", .flag fun st => { st with proc := { st.proc with define_prefix := false } }),
  (S "-cflags", .flag fun st => { st with cflags := true, filterc := .any }),
  (S "-libs", .flag fun st => { st with libs := true, filterl := .any }),
  (S "-variable", .value fun value st => .ok { st with variable_ := some value }),
  (S "-static", .flag fun st => { st with static_ := true }),
  (S "-libs-only-L", .flag fun st => { st with libs := true, filterl := .L }),
  (S "-libs-only-l", .flag fun st => { st with libs := true, filterl := .l }),
  (S "-libs-only-other", .flag fun st => { st with libs := true, filterl := .otherL }),
  (S "-cflags-only-I", .flag fun st => { st with cflags := true, filterc := .I }),
  (S "-cflags-only-other", .flag fun st => { st with cflags := true, filterc := .otherC }),
  (S "-with-path", .value withpath),
  (S "-maximum-traverse-depth", .value fun value st =>
    .ok { st with proc := { st.proc with maxdepth := parseuint value 1000 } }),
  (S "-msvc-syntax", .flag fun st => { st with msvc := true }),
  (S "-define-variable", .value definevariable),
  (S "-newlines", .flag fun st => { st with argdelim := 0x0a }),
  -- the check already happens, just disable the messages
  (S "-exists", .flag fun st => { st with silent := true }),
  -- always succeeds
  (S "-atleast-pkgconfig-version", .value fun _ _ => .error (.exit [])),
  (S "-atleast-version", .value (overrideversion .GTE)),
  (S "-exact-version", .value (overrideversion .EQ)),
  (S "-max-version", .value (overrideversion .LTE)),
  (S "-silence-errors", .flag fun st => { st with silent := true }),
  (S "-errors-to-stdout", .flag fun st => { st with err_to_stdout := true }),
  -- ignored
  (S "-print-errors", .flag id),
  (S "-short-errors", .flag id),
  (S "-uninstalled", .flag id),
  (S "-keep-system-cflags", .flag fun st => { st with print_sysinc := true }),
  (S "-keep-system-libs", .flag fun st => { st with print_syslib := true }),
  (S "-validate", .flag fun st => { st with silent := true, proc := { st.proc with recursive := false } })]

/-! ## The loop -/

/-- An option and, where it takes one that was not attached, its value. -/
def takeoption (opts : Options) (st : Optstate) (r : Optresult) : Options × Except Halt Optstate :=
  match optiontable.lookup r.arg with
  | none => (opts, .error (.fail (failunknown .stderr r.arg)))
  | some (.exit text) => (opts, .error (.exit text))
  | some (.flag f) => (opts, .ok (f st))
  | some (.value f) =>
    match r.value with
    | some value => (opts, f value st)
    | none =>
      match getargopt .stderr opts r.arg with
      | (opts, .error e) => (opts, .error e)
      | (opts, .ok value) => (opts, f value st)

/-- The body of the loop; `none` where it breaks. -/
def optionturn (opts : Options) (st : Optstate) : Options × Except Halt (Option Optstate) :=
  match nextoption opts with
  | (opts, .error e) => (opts, .error e)
  | (opts, .ok r) =>
    if !r.ok then (opts, .ok none)
    else if !r.isoption then (opts, .ok (some { st with args := st.args ++ [r.arg] }))
    else ((takeoption opts st r).1, (takeoption opts st r).2.map some)

theorem nextloop_nil {p : Options} (h : p.rest = []) : nextloop p = (p.advance, .error .outofbounds) := by
  rw [nextloop]
  split
  · rename_i q e hr; rw [Options.readarg_nil h] at hr; cases hr; rfl
  · rename_i q arg hr; rw [Options.readarg_nil h] at hr; cases hr

theorem nextloop_cons {p : Options} {arg : S8} {args : List S8} (h : p.rest = arg :: args) :
    nextloop p =
      if p.dashdash || arg.length < 2 || arg.head? != some 0x2d then (p.advance, .ok ⟨arg, none, false, true⟩)
      else if arg == S "--" then nextloop { p.advance with dashdash := true }
      else (p.advance, .ok (optresult arg)) := by
  rw [nextloop]
  split
  · rename_i q e hr; rw [Options.readarg_cons h] at hr; cases hr
  · rename_i q arg' hr
    rw [Options.readarg_cons h] at hr
    cases hr
    by_cases hplain : (p.dashdash || arg.length < 2 || arg.head? != some 0x2d) = true
    · rw [if_pos hplain, if_pos hplain]
    · rw [if_neg hplain, if_neg hplain]
      have hd : p.dashdash = false := by
        cases hd : p.dashdash with
        | false => rfl
        | true => simp [hd] at hplain
      simp only [hd, Bool.not_false, Bool.true_and]

/-- A `--` has been read: whatever comes next is delivered. -/
theorem nextloop_dashdash {p : Options} (hd : p.dashdash = true) :
    nextloop p =
      match p.rest with
      | [] => (p.advance, .error .outofbounds)
      | arg :: _ => (p.advance, .ok ⟨arg, none, false, true⟩) := by
  cases h : p.rest with
  | nil => rw [nextloop_nil h]
  | cons arg args => rw [nextloop_cons h, if_pos (by simp [hd])]

theorem nextoption_cons {p : Options} {arg : S8} {args : List S8} (h : p.rest = arg :: args) :
    nextoption p = nextloop p := by
  rw [nextoption, if_neg]
  intro he
  simp [Options.rest, he] at h

theorem getargopt_cons {p : Options} {arg : S8} {args : List S8} (err : Errbuf) (option : S8)
    (h : p.rest = arg :: args) :
    getargopt err p option = (p.advance, .ok arg) := by
  rw [getargopt, if_neg, Options.readarg_cons h]
  intro he
  simp [Options.rest, he] at h

theorem takeoption_le {p q : Options} {st st' : Optstate} {r : Optresult} (h : takeoption p st r = (q, .ok st')) :
    q.rest.length ≤ p.rest.length := by
  unfold takeoption at h
  split at h
  · cases h
  · cases h
  · cases h; exact Nat.le_refl _
  · split at h
    · exact Nat.le_of_eq (congrArg _ (congrArg _ (Prod.mk.inj h).1.symm))
    · split at h
      · cases h
      · rename_i q' value hg
        rw [← (Prod.mk.inj h).1]
        cases hp : p.rest with
        | nil =>
          unfold getargopt at hg
          split at hg
          · cases hg
          · rw [Options.readarg_nil hp] at hg; cases hg
        | cons arg args =>
          rw [getargopt_cons _ _ hp] at hg
          cases hg
          rw [Options.advance_rest hp]
          exact Nat.le_succ _

theorem nextoption_lt {p q : Options} {r : Optresult} (h : nextoption p = (q, .ok r)) (hok : r.ok = true) :
    q.rest.length < p.rest.length := by
  cases hp : p.rest with
  | nil =>
    unfold nextoption at h
    split at h
    · cases h; cases hok
    · rw [nextloop_nil hp] at h; cases h
  | cons arg args =>
    have hadv := Options.advance_rest hp
    rw [nextoption_cons hp, nextloop_cons hp] at h
    split at h
    · cases h; rw [hadv]; exact Nat.lt_succ_self _
    · split at h
      · rw [nextloop_dashdash rfl] at h
        cases hrest : Options.rest { p.advance with dashdash := true } with
        | nil => rw [hrest] at h; cases h
        | cons arg' args' =>
          rw [hrest] at h
          cases h
          rw [Options.advance_rest hrest]
          have : args = arg' :: args' := hadv.symm.trans hrest
          rw [this]
          exact Nat.lt_succ_of_lt (Nat.lt_succ_self _)
      · cases h; rw [hadv]; exact Nat.lt_succ_self _

theorem optionturn_lt {p q : Options} {st st' : Optstate} (h : optionturn p st = (q, .ok (some st'))) :
    q.rest.length < p.rest.length := by
  unfold optionturn at h
  split at h
  · cases h
  · rename_i p' r hn
    split at h
    · cases h
    · rename_i hok
      have hlt := nextoption_lt hn (by simpa using hok)
      split at h
      · cases h; exact hlt
      · simp only [Prod.mk.injEq] at h
        obtain ⟨rfl, hr⟩ := h
        cases ht : (takeoption p' st r).2 with
        | error e => rw [ht] at hr; cases hr
        | ok st'' => exact Nat.lt_of_le_of_lt (takeoption_le (Prod.ext rfl ht)) hlt

/-- The option loop of `uconfig`. -/
def optionloop (opts : Options) (st : Optstate) : Options × Except Halt Optstate :=
  match _h : optionturn opts st with
  | (opts, .error e) => (opts, .error e)
  | (opts, .ok none) => (opts, .ok st)
  | (opts, .ok (some st)) => optionloop opts st
termination_by opts.rest.length
decreasing_by exact optionturn_lt _h

end GnuWindows.PkgConfig
