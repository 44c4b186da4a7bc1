/-
  GnuWindows.PkgConfig.Process — the processor: loading packages and what they require.

  `process` reads one argument with an array of 256 frames. A frame is a list of
  requirements that is being read: its unread bytes, the package read last and an operator
  that waits for its version. Loading a package pushes two frames, for its private and
  its public requirements; a package that was loaded as private and is met on a public
  path pushes one.
-/
import GnuWindows.PkgConfig.Find
import GnuWindows.PkgConfig.Pkgs
import GnuWindows.PkgConfig.Version

namespace GnuWindows.PkgConfig

open GnuWindows.Lib.BoundedStack

structure Procstate where
  arg : S8
  last : Option Nat
  depth : Nat
  flags : Flags
  op : Versop
  /-- An operator waits for the version of a package. -/
  pending : op ≠ .ERR → last.isSome = true

/-- A list of requirements to be read. -/
def Procstate.start (arg : S8) (depth : Nat) (flags : Flags) : Procstate := ⟨arg, none, depth, flags, .ERR, by simp⟩

structure Processor where
  err : Errbuf
  search : Search
  global : Env
  pkgs : Pkgs
  last : Option Nat
  maxdepth : Nat
  op : Versop
  define_prefix : Bool
  recursive : Bool
  ignore_versions : Bool
  pending : op ≠ .ERR → last.isSome = true

structure Config where
  args : List S8
  envpath : S8
  fixedpath : S8
  top_builddir : Option S8
  sys_incpath : S8
  sys_libpath : S8
  print_sysinc : Option S8
  print_syslib : Option S8
  define_prefix : Bool
  delim : UInt8

def newprocessor (c : Config) (err : Errbuf) (g : Env) : Processor where
  err := err
  search := appendpath (appendpath (newsearch c.delim) c.envpath) c.fixedpath
  global := g
  pkgs := Pkgs.empty
  last := none
  maxdepth := 0x7fffffff
  op := .ERR
  define_prefix := true
  recursive := true
  ignore_versions := false
  pending := by simp

/-! ## Failures -/

def procfail (err : Errbuf) (op : Versop) (p : Option Pkg) : Fail :=
  diagnose err (S "expected version following operator " ++ opname op ++
    (match p with
      | some p => S " in package '" ++ p.realname ++ S "'"
      | none => []) ++ S "\n")

def failmaxrecurse (err : Errbuf) (tok : S8) : Fail :=
  diagnose err (S "exceeded max recursion depth on '" ++ tok ++ S "'\n")

def failversion (err : Errbuf) (pkg : Pkg) (op : Versop) (want : S8) : Fail :=
  diagnose err (S "requested '" ++ pkg.realname ++ S "' " ++ opname op ++ S " '" ++ want ++
    S "' but got '" ++ bytes pkg.version ++ S "'\n")

def failoperator (err : Errbuf) (tok : S8) : Fail :=
  diagnose err (S "unexpected operator '" ++ tok ++ S "'\n")

/-! ## One turn of the loop -/

/-- The frames, the top one apart, and the packages. -/
structure Procrun where
  top : Procstate
  below : List Procstate
  pkgs : Pkgs

variable (mapfile : S8 → Filemap) (proc : Processor)

def addflags (flags : Flags) (p : Pkg) : Pkg := { p with flags := p.flags.or flags }

/-- A package token `tok` of frame `s`, with `tail` unread after it. -/
def procpackage (st : Procrun) (tok tail : S8) : Except Fail Procrun :=
  let s := st.top
  let depth := s.depth + 1
  let flags := s.flags
  let located := st.pkgs.locate (pathtorealname tok)
  let i := located.2
  let p := located.1.get i
  let s : Procstate := ⟨tail, some i, s.depth, flags, .ERR, by simp⟩
  let descend := proc.recursive && depth < proc.maxdepth
  if p.contents.isSome then
    -- on a public branch, but previously loaded as private: its public requires are too
    let promote := flags.pkgPublic && !p.flags.pkgPublic
    let pkgs := located.1.update i (addflags flags) fun _ => rfl
    if promote && descend then
      if 255 ≤ st.below.length then .error (failmaxrecurse proc.err tok)
      else .ok ⟨.start (bytes p.requires) depth { flags with pkgDirect := false }, s :: st.below, pkgs⟩
    else .ok ⟨s, st.below, pkgs⟩
  else
    match loadpackage mapfile proc.err proc.global proc.search proc.define_prefix p tok with
    | .error f => .error f
    | .ok p =>
      let pkgs := located.1.update i (fun base => { addflags flags p with realname := base.realname }) fun _ => rfl
      if descend then
        if 254 ≤ st.below.length then .error (failmaxrecurse proc.err tok)
        else .ok ⟨.start (bytes p.requires) depth { flags with pkgDirect := false },
          .start (bytes p.requiresprivate) depth .none :: s :: st.below, pkgs⟩
      else .ok ⟨s, st.below, pkgs⟩

/-- `Except` as the outcome of a step. -/
def Next.ofExcept {σ ρ : Type} : Except Fail σ → Next σ (Except Fail ρ)
  | .ok s => .go s
  | .error f => .stop (.error f)

/-- What is left of the bottom frame, and the packages. -/
structure Procend where
  last : Option Nat
  op : Versop
  pending : op ≠ .ERR → last.isSome = true
  pkgs : Pkgs

def procStep (st : Procrun) : Next Procrun (Except Fail Procend) :=
  let s := st.top
  let pair := nexttoken s.arg
  let tok := pair.1
  if tok = [] then
    match st.below with
    | [] => .stop (.ok ⟨s.last, s.op, s.pending, st.pkgs⟩)
    | s' :: below =>
      if s.op ≠ .ERR then .stop (.error (procfail proc.err s.op (s.last.map st.pkgs.get)))
      else .go ⟨s', below, st.pkgs⟩
  else if h : s.op ≠ .ERR then
    let last := st.pkgs.get (s.last.get (s.pending h))
    if !proc.ignore_versions && !validcompare s.op (compareversions (bytes last.version) tok) then
      .stop (.error (failversion proc.err last s.op tok))
    else .go { st with top := ⟨pair.2, none, s.depth, s.flags, .ERR, by simp⟩ }
  else if parseop tok ≠ .ERR then
    match s.last with
    | none => .stop (.error (failoperator proc.err tok))
    | some i => .go { st with top := ⟨pair.2, some i, s.depth, s.flags, parseop tok, by simp⟩ }
  else Next.ofExcept (procpackage mapfile proc st tok pair.2)

/-! ## The loop ends -/

/-- A frame counts one more than its bytes: ending it is a step too. -/
def framesizes (frames : List Procstate) : List Nat := frames.map (·.arg.length + 1)

theorem procpackage_moves {st st' : Procrun} {tok tail : S8} (h : procpackage mapfile proc st tok tail = .ok st')
    (ht : tail.length < st.top.arg.length) :
    Move 256 (fun _ => True) (framesizes (st'.top :: st'.below)) (framesizes (st.top :: st.below)) := by
  have hlt : tail.length + 1 < st.top.arg.length + 1 := by omega
  simp only [procpackage] at h
  split at h
  · split at h
    · split at h
      · cases h
      · rename_i hcap
        cases h
        exact .push [_] _ hlt (fun _ _ => trivial) (by simp; omega)
    · cases h
      exact .shrink _ hlt
  · split at h
    · cases h
    · split at h
      · split at h
        · cases h
        · rename_i hcap
          cases h
          exact .push [_, _] _ hlt (fun _ _ => trivial) (by simp; omega)
      · cases h
        exact .shrink _ hlt

/-- What a turn can do: a frame ends, or a version, an operator or a package is read. -/
theorem procStep_cases {mapfile : S8 → Filemap} {proc : Processor} {st st' : Procrun}
    (h : procStep mapfile proc st = .go st') :
    ((nexttoken st.top.arg).1 = [] ∧ st.top.op = .ERR ∧ st.below = st'.top :: st'.below ∧ st'.pkgs = st.pkgs) ∨
    ((nexttoken st.top.arg).1 ≠ [] ∧ ∃ hop : st.top.op ≠ .ERR,
      (proc.ignore_versions = false → validcompare st.top.op (compareversions
        (bytes (st.pkgs.get (st.top.last.get (st.top.pending hop))).version) (nexttoken st.top.arg).1) = true) ∧
      st' = { st with top := ⟨(nexttoken st.top.arg).2, none, st.top.depth, st.top.flags, .ERR, by simp⟩ }) ∨
    ((nexttoken st.top.arg).1 ≠ [] ∧ st.top.op = .ERR ∧ parseop (nexttoken st.top.arg).1 ≠ .ERR ∧
      ∃ i, st.top.last = some i ∧ st' = { st with top :=
        ⟨(nexttoken st.top.arg).2, some i, st.top.depth, st.top.flags, parseop (nexttoken st.top.arg).1, by simp⟩ }) ∨
    ((nexttoken st.top.arg).1 ≠ [] ∧ st.top.op = .ERR ∧ parseop (nexttoken st.top.arg).1 = .ERR ∧
      procpackage mapfile proc st (nexttoken st.top.arg).1 (nexttoken st.top.arg).2 = .ok st') := by
  obtain ⟨s, below, pkgs⟩ := st
  simp only [procStep] at h
  split at h
  · rename_i htok
    cases below with
    | nil => cases h
    | cons s' below =>
      simp only at h
      split at h
      · cases h
      · rename_i hop
        cases h
        exact Or.inl ⟨htok, Decidable.not_not.mp hop, rfl, rfl⟩
  · rename_i htok
    split at h
    · rename_i hop
      split at h
      · cases h
      · rename_i hvalid
        cases h
        exact Or.inr (Or.inl ⟨htok, hop, fun hignore => by simpa [hignore] using hvalid, rfl⟩)
    · rename_i hop
      split at h
      · rename_i hparse
        split at h
        · cases h
        · rename_i i hi
          cases h
          exact Or.inr (Or.inr (Or.inl ⟨htok, Decidable.not_not.mp hop, hparse, i, hi, rfl⟩))
      · rename_i hparse
        refine Or.inr (Or.inr (Or.inr ⟨htok, Decidable.not_not.mp hop, Decidable.not_not.mp hparse, ?_⟩))
        simp only
        cases hp : procpackage mapfile proc ⟨s, below, pkgs⟩ (nexttoken s.arg).1 (nexttoken s.arg).2 with
        | error f => rw [hp] at h; cases h
        | ok st'' => rw [hp] at h; cases h; rfl

theorem procStep_moves {st st' : Procrun} (h : procStep mapfile proc st = .go st') :
    Move 256 (fun _ => True) (framesizes (st'.top :: st'.below)) (framesizes (st.top :: st.below)) := by
  rcases procStep_cases h with ⟨_, _, hbelow, _⟩ | ⟨htok, _, _, rfl⟩ | ⟨htok, _, _, i, _, rfl⟩ | ⟨htok, _, _, hp⟩
  · rw [hbelow]
    exact .pop _ _
  · exact .shrink _ (Nat.succ_lt_succ (nexttoken_tail_lt htok))
  · exact .shrink _ (Nat.succ_lt_succ (nexttoken_tail_lt htok))
  · exact procpackage_moves mapfile proc hp (nexttoken_tail_lt htok)

def procMachine : Machine 256 (fun _ => True) Procrun (Except Fail Procend) where
  step := procStep mapfile proc
  size st := framesizes (st.top :: st.below)
  moves := procStep_moves mapfile proc

/-- The bottom frame of an argument. -/
def Processor.frame (arg : S8) : Procstate := ⟨arg, proc.last, 0, ⟨true, true⟩, proc.op, proc.pending⟩

def process (arg : S8) : Except Fail Processor :=
  match (procMachine mapfile proc).run ⟨proc.frame arg, [], proc.pkgs⟩ with
  | .error f => .error f
  | .ok e => .ok { proc with last := e.last, op := e.op, pending := e.pending, pkgs := e.pkgs }

/-- Evaluating a run: `n` turns end without a failure, in a state with `C`. -/
theorem process_runN (mapfile : S8 → Filemap) (proc : Processor) (arg : S8) {C : Procend → Bool} (n : Nat)
    (h : (((procMachine mapfile proc).runN n ⟨proc.frame arg, [], proc.pkgs⟩).bind Except.toOption).any C = true) :
    ∃ e, C e = true ∧ process mapfile proc arg =
      .ok { proc with last := e.last, op := e.op, pending := e.pending, pkgs := e.pkgs } := by
  obtain ⟨e, he, hC⟩ := (Option.any_eq_true _ _).mp h
  obtain ⟨r, hr, hre⟩ := Option.bind_eq_some_iff.mp he
  refine ⟨e, hC, ?_⟩
  cases r with
  | error f => cases hre
  | ok e' =>
    cases hre
    rw [process, (procMachine mapfile proc).run_of_runN hr]

/-- Process arguments one after another. -/
def processargs (args : List S8) : Except Fail Processor := args.foldlM (fun proc arg => process mapfile proc arg) proc

/-- Evaluating a run over several arguments, with at most `n` turns for each. -/
def processN (n : Nat) (proc : Processor) (arg : S8) : Option Processor :=
  (((procMachine mapfile proc).runN n ⟨proc.frame arg, [], proc.pkgs⟩).bind Except.toOption).map fun e =>
    { proc with last := e.last, op := e.op, pending := e.pending, pkgs := e.pkgs }

theorem process_processN {n : Nat} {proc proc' : Processor} {arg : S8} (h : processN mapfile n proc arg = some proc') :
    process mapfile proc arg = .ok proc' := by
  obtain ⟨e, he, rfl⟩ := Option.map_eq_some_iff.mp h
  obtain ⟨r, hr, hre⟩ := Option.bind_eq_some_iff.mp he
  cases r with
  | error f => cases hre
  | ok e' =>
    cases hre
    rw [process, (procMachine mapfile proc).run_of_runN hr]

theorem processargs_eval (mapfile : S8 → Filemap) (proc : Processor) (args : List S8) {C : Processor → Bool} (n : Nat)
    (h : (args.foldlM (processN mapfile n) proc).any C = true) :
    ∃ proc', C proc' = true ∧ processargs mapfile proc args = .ok proc' := by
  obtain ⟨proc', hp, hC⟩ := (Option.any_eq_true _ _).mp h
  refine ⟨proc', hC, ?_⟩
  clear h
  induction args generalizing proc with
  | nil => cases hp; rfl
  | cons arg args ih =>
    rw [List.foldlM_cons] at hp
    obtain ⟨p, h1, h2⟩ := Option.bind_eq_some_iff.mp hp
    rw [processargs, List.foldlM_cons, process_processN mapfile h1]
    exact ih p h2

/-- An operator at the end has no version. -/
def endprocessor (err : Errbuf) : Except Fail Unit :=
  if proc.op ≠ .ERR then .error (procfail err proc.op none) else .ok ()

end GnuWindows.PkgConfig
