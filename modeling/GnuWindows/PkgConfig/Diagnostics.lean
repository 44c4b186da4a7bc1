/-
  GnuWindows.PkgConfig.Diagnostics — which buffer every message goes to.

  Each failure site prints on the buffer it was given; the ones under `process` are given
  the processor's, which is the one of stderr whatever the options say.

  Proved: the buffer of every failure (`processargs_on`, `report_on`); when a silenced or
  redirected run keeps its messages where they belong (`uconfig_redirected_iff`).
-/
import GnuWindows.PkgConfig.ExpandProofs
import GnuWindows.PkgConfig.OptionsProofs
import GnuWindows.PkgConfig.Uconfig

namespace GnuWindows.PkgConfig

open GnuWindows.Lib.Hoare (Ends Triple)
open GnuWindows.Lib.BoundedStack

/-- Fails, if it does, with a message on `err`. -/
def On (err : Errbuf) {α : Type} (x : Except Fail α) : Prop := Ends x (fun _ => True) fun f => f.err = err

variable {mapfile : S8 → Filemap} {err : Errbuf}

theorem On.ok {α : Type} {a : α} : On err (.ok a : Except Fail α) := trivial

theorem On.error {α : Type} {message : S8} : On err (.error (diagnose err message) : Except Fail α) :=
  Ends.error (Q := fun _ => True) (E := fun f : Fail => f.err = err) rfl

theorem On.bind {α β : Type} {x : Except Fail α} {f : α → Except Fail β} (hx : On err x) (hf : ∀ a, On err (f a)) :
    On err (x >>= f) := Ends.bind hx fun a _ => hf a

/-! ## Loading a package -/

theorem readpackage_on (mapfile : S8 → Filemap) (err : Errbuf) (path realname : S8) :
    On err (readpackage mapfile err path realname) := by
  unfold readpackage
  split
  · exact .ok
  · split
    · exact .ok
    · exact .error
    · exact .ok

theorem searchdirs_on (realname : S8) (dirs : List S8) (path : S8) :
    On err (searchdirs mapfile err realname dirs path) := by
  induction dirs generalizing path with
  | nil => exact .ok
  | cons dir dirs ih =>
    have hread := readpackage_on mapfile err (buildpath dir realname) realname
    simp only [searchdirs]
    split
    · rename_i f hf; rw [hf] at hread; exact hread
    · exact .ok
    · exact ih _

theorem openpackage_on (dirs : Search) (realname : S8) : On err (openpackage mapfile err dirs realname) := by
  unfold openpackage
  extract_lets rest
  have hrest : ∀ first, On err (rest first) := by
    intro first
    cases first with
    | some contents => exact .ok
    | none =>
      apply On.bind (searchdirs_on _ _ _)
      intro found
      split
      · exact .ok
      · exact .error
  split
  · exact (readpackage_on _ _ _ _).bind hrest
  · exact On.ok.bind hrest

theorem findpackage_on (dirs : Search) (realname : S8) : On err (findpackage mapfile err dirs realname) := by
  unfold findpackage
  apply On.bind (openpackage_on _ _)
  intro found
  obtain ⟨path, realname, contents⟩ := found
  simp only
  split
  · exact .error
  · exact .error
  · split
    · exact .error
    · exact .ok

theorem expand_fail {global : Env} {p : Pkg} {str : S8} {f : Fail} (h : (expand err global p str).fail = some f) :
    f.err = err := by
  rw [(expand_reports err global p str).fail, Option.map_eq_some_iff] at h
  obtain ⟨stop, -, rfl⟩ := h
  cases stop <;> rfl

theorem expandmerge_on (global : Env) (base update : Pkg) : On err (expandmerge err global base update) := by
  refine Ends.foldlM (?_) trivial
  intro i _ base _
  simp only [expandfield]
  split
  · rename_i f hf; exact expand_fail hf
  · exact On.ok

theorem loadpackage_on (mapfile : S8 → Filemap) (err : Errbuf) (global : Env) (dirs : Search) (define : Bool)
    (base : Pkg) (tok : S8) :
    On err (loadpackage mapfile err global dirs define base tok) :=
  (findpackage_on _ _).bind fun _ => expandmerge_on _ _ _

/-! ## Processing the arguments -/

variable {proc : Processor}

theorem procpackage_on (mapfile : S8 → Filemap) (proc : Processor) (st : Procrun) (tok tail : S8) :
    On proc.err (procpackage mapfile proc st tok tail) := by
  simp only [procpackage]
  split
  · split
    · split
      · exact .error
      · exact .ok
    · exact .ok
  · have hload := loadpackage_on mapfile proc.err proc.global proc.search proc.define_prefix
      ((st.pkgs.locate (pathtorealname tok)).1.get (st.pkgs.locate (pathtorealname tok)).2) tok
    split
    · rename_i f hf; rw [hf] at hload; exact hload
    · split
      · split
        · exact .error
        · exact .ok
      · exact .ok

theorem procStep_on {st : Procrun} {r : Except Fail Procend} (h : procStep mapfile proc st = .stop r) :
    On proc.err r := by
  simp only [procStep] at h
  split at h
  · split at h
    · cases h; exact .ok
    · split at h
      · cases h; exact .error
      · cases h
  · split at h
    · split at h
      · cases h; exact .error
      · cases h
    · split at h
      · split at h
        · cases h; exact .error
        · cases h
      · have hp := procpackage_on mapfile proc st (nexttoken st.top.arg).1 (nexttoken st.top.arg).2
        cases hr : procpackage mapfile proc st (nexttoken st.top.arg).1 (nexttoken st.top.arg).2 with
        | ok st' => rw [hr] at h; cases h
        | error f => rw [hr] at h hp; cases h; exact hp

theorem process_on (arg : S8) :
    Ends (process mapfile proc arg) (fun proc' => proc'.err = proc.err) fun f => f.err = proc.err := by
  have hrun : On proc.err ((procMachine mapfile proc).run ⟨proc.frame arg, [], proc.pkgs⟩) :=
    (procMachine mapfile proc).run_inv (I := fun _ => True) (fun _ _ _ _ => trivial)
      (fun _ _ _ h => procStep_on h) _ trivial
  unfold process
  split
  · rename_i f hf; rw [hf] at hrun; exact hrun
  · exact rfl

/-- The message of a failed call of `process` goes to the processor's buffer. -/
theorem processargs_on (args : List S8) :
    Ends (processargs mapfile proc args) (fun proc' => proc'.err = proc.err) fun f => f.err = proc.err :=
  Ends.foldlM (fun arg _ _ h => h ▸ process_on arg) rfl

/-! ## Printing -/

theorem appendfield_on (w : Fieldwriter) (p : Pkg) (field : S8) : On err (appendfield err w p field) := by
  induction w, field using appendfield.induct with
  | case1 w => rw [appendfield, dif_pos rfl]; exact .ok
  | case2 w field hf r hok ih => rw [appendfield, dif_neg hf, dif_pos hok]; exact ih
  | case3 w field hf r hok => rw [appendfield, dif_neg hf, dif_neg hok]; exact .error

theorem appendlibs_on (static_ : Bool) (w : Fieldwriter) (p : Pkg) : On err (appendlibs err static_ w p) := by
  unfold appendlibs
  split
  · exact (appendfield_on _ _ _).bind fun _ => appendfield_on _ _ _
  · split
    · exact appendfield_on _ _ _
    · exact .ok

theorem checkversions_on (err : Errbuf) (op : Versop) (version : S8) (l : List Pkg) :
    On err (checkversions err op version l) := by
  unfold checkversions
  split
  · exact .ok
  · induction l with
    | nil => exact .ok
    | cons p l ih =>
      refine On.bind ?_ fun _ => ih
      beta_reduce
      split
      · exact .ok
      · exact .error

/-- Fails, if it does, with a message on `err`, whatever was printed. -/
def Says (err : Errbuf) {α : Type} (x : Uconfig α) : Prop :=
  Triple (fun _ => True) x (fun _ _ => True) fun f _ => f.err = err

theorem Says.pure {α : Type} {a : α} : Says err (pure a : Uconfig α) := Triple.pure fun _ _ => trivial

theorem Says.print {s : S8} : Says err (print s) := Triple.step fun _ _ => trivial

theorem Says.bind {α β : Type} {x : Uconfig α} {f : α → Uconfig β} (hx : Says err x) (hf : ∀ a, Says err (f a)) :
    Says err (x >>= f) := Triple.bind hx hf

theorem Says.forM {l : List Pkg} {f : Pkg → Uconfig Unit} (h : ∀ p, Says err (f p)) : Says err (l.forM f) :=
  Triple.forM fun p _ => h p

theorem printmodversion_said (st : Optstate) (l : List Pkg) : Says err (printmodversion st l) := by
  unfold printmodversion
  split
  · refine .forM ?_
    intro p
    split
    · exact Says.print.bind fun _ => .print
    · exact .pure
  · exact .pure

theorem printexpanded_said (global : Env) (p : Pkg) (str : S8) : Says err (printexpanded err global p str) := by
  apply Says.print.bind
  intro _
  split
  · rename_i f hf; exact Triple.throw fun _ _ => expand_fail hf
  · exact .pure

theorem printvariable_said (st : Optstate) (global : Env) (l : List Pkg) :
    Says (errbuf st) (printvariable st global l) := by
  unfold printvariable
  split
  · exact .pure
  · refine .forM ?_
    intro p
    split
    · split
      · exact (printexpanded_said _ _ _).bind fun _ => .print
      · exact .pure
    · exact .pure

theorem printfields_said {fields : Except Fail Fieldwriter} (h : On err fields) (argcount : Nat) :
    Says err (printfields fields argcount) :=
  Says.bind (Triple.ofExcept h (fun _ _ _ _ => trivial) fun _ _ hf _ => hf) fun _ => Says.print.bind fun _ => .pure

theorem printcflags_said (conf : Config) (st : Optstate) (l : List Pkg) (argcount : Nat) :
    Says (errbuf st) (printcflags conf st l argcount) := by
  unfold printcflags
  split
  · exact printfields_said (Ends.foldlM (fun p _ w _ => appendfield_on w p _) trivial) argcount
  · exact .pure

theorem printlibs_said (conf : Config) (st : Optstate) (l : List Pkg) (argcount : Nat) :
    Says (errbuf st) (printlibs conf st l argcount) := by
  unfold printlibs
  split
  · exact printfields_said (Ends.foldlM (fun p _ w _ => appendlibs_on _ w p) trivial) argcount
  · exact .pure

/-- What fails once the packages are there says so on the buffer the options chose. -/
theorem report_on (conf : Config) (st : Optstate) (proc : Processor) : Says (errbuf st) (report conf st proc) := by
  unfold report
  refine (printmodversion_said _ _).bind fun _ => (printvariable_said _ _ _).bind fun _ =>
    (printcflags_said _ _ _ _).bind fun _ => (printlibs_said _ _ _ _).bind fun _ => ?_
  refine Says.bind ?_ fun _ => Triple.step fun _ _ => trivial
  unfold printnewline
  split
  · exact .print
  · exact .pure

theorem checkall_on (st : Optstate) (proc : Processor) : On (errbuf st) (checkall st proc) := by
  refine On.bind ?_ fun _ => On.bind ?_ fun _ => checkversions_on _ _ _ _
  · unfold endprocessor
    split
    · exact .error
    · exact .ok
  · unfold checkcount
    split
    · exact .error
    · exact .ok

theorem conclude_on (conf : Config) (st : Optstate) (proc : Processor) : Says (errbuf st) (conclude conf st proc) :=
  Says.bind (Triple.ofExcept (checkall_on st proc) (fun _ _ _ _ => trivial) fun _ _ hf _ => hf) fun _ => report_on _ _ _

/-! ## The file descriptors -/

namespace Ended

variable {e : Ended} {f : Fail}

theorem stderr_ok (h : e.result = .ok ()) : e.stderr = [] := by rw [stderr, h]

theorem stderr_eq (h : e.result = .error f) (hf : f.err = .stderr) : e.stderr.flatten = f.text := by
  rw [stderr, h]
  simp only [hf, if_true]
  have hflush := total_flush (prints8 (newfdbuf 128 (by decide)) f.text)
  have htotal := hflush.1.trans (total_prints8 _ _)
  rw [U8buf.total, hflush.2, List.append_nil] at htotal
  rw [htotal]
  rfl

theorem stderr_nil (h : e.result = .error f) (hf : f.err ≠ .stderr) : e.stderr = [] := by
  rw [stderr, h]
  simp only [hf, if_false]

theorem stdout_ok (h : e.result = .ok ()) : e.stdout = e.out.chunks := by rw [stdout, h]

theorem stdout_eq (h : e.result = .error f) (hf : f.err = .stdout) : e.stdout.flatten = e.out.total ++ f.text := by
  rw [stdout, h]
  simp only [hf, if_true]
  have hflush := total_flush (prints8 e.out f.text)
  have htotal := hflush.1.trans (total_prints8 _ _)
  rwa [U8buf.total, hflush.2, List.append_nil] at htotal

theorem stdout_chunks (h : e.result = .error f) (hf : f.err ≠ .stdout) : e.stdout = e.out.chunks := by
  rw [stdout, h]
  simp only [hf, if_false]

end Ended

theorem Fail.text_ne (f : Fail) : f.text ≠ [] := by
  intro h
  have := f.diagnostic
  rw [h, List.prefix_nil] at this
  exact absurd this (by decide)

/-! ## Silenced and redirected runs -/

/-- One of the options is given that disable the messages. -/
def silenced (args : List S8) : Bool := silencers.any fun name => given name args

def redirected (args : List S8) : Bool := given (S "-errors-to-stdout") args

/-- What the options promise: no message at all, or every message on fd 1. -/
structure Redirects (args : List S8) (e : Ended) : Prop where
  silent : silenced args = true → e.stderr = [] ∧ ∀ f, e.result = .error f → e.stdout = e.out.chunks
  tostdout : redirected args = true → silenced args = false →
    e.stderr = [] ∧ ∀ f, e.result = .error f → e.stdout.flatten = e.out.total ++ f.text

variable {conf : Config} {st : Optstate}

theorem uconfig_parsed (mapfile : S8 → Filemap) (h : Parsed conf st) :
    uconfig mapfile conf =
      some ⟨((afteroptions mapfile conf st).run stdoutbuf).2, ((afteroptions mapfile conf st).run stdoutbuf).1⟩ := by
  unfold uconfig
  rw [h]

theorem Parsed.procerr (h : Parsed conf st) : st.proc.err = .stderr := h.applied.err

/-- A failed call of `process` ends the run. -/
theorem afteroptions_fails (conf : Config) {f : Fail} (h : processargs mapfile st.proc st.args = .error f)
    (out : U8buf) :
    (afteroptions mapfile conf st).run out = (.error f, out) := by
  rw [afteroptions, h]
  rfl

theorem afteroptions_ok {proc : Processor} (h : processargs mapfile st.proc st.args = .ok proc) :
    afteroptions mapfile conf st = conclude conf st proc := by
  rw [afteroptions, h]
  rfl

/-- A failed call of `process` writes on fd 2 whatever the options are. -/
theorem not_redirects (h : Parsed conf st) (hopt : (silenced conf.args || redirected conf.args) = true) {f : Fail}
    (hproc : processargs mapfile st.proc st.args = .error f) : ¬ Redirects conf.args ⟨stdoutbuf, .error f⟩ := by
  intro hr
  have hf : f.err = .stderr := ((processargs_on st.args).of_error hproc).trans h.procerr
  have hnil : Ended.stderr ⟨stdoutbuf, .error f⟩ = [] := by
    cases hs : silenced conf.args with
    | true => exact (hr.silent hs).1
    | false =>
      rw [hs, Bool.false_or] at hopt
      exact (hr.tostdout hopt hs).1
  have htext := Ended.stderr_eq (e := ⟨stdoutbuf, .error f⟩) rfl hf
  rw [hnil] at htext
  exact f.text_ne htext.symm

theorem uconfig_redirected_iff (h : Parsed conf st) :
    ∃ e, uconfig mapfile conf = some e ∧
      (Redirects conf.args e ↔ (silenced conf.args || redirected conf.args) = true →
        ∃ proc, processargs mapfile st.proc st.args = .ok proc) := by
  refine ⟨_, uconfig_parsed _ h, ?_⟩
  have hsilent : st.silent = silenced conf.args := optionloop_silent h
  have hstdout : st.err_to_stdout = redirected conf.args := optionloop_tostdout h
  constructor
  · intro hr hopt
    cases hproc : processargs mapfile st.proc st.args with
    | ok proc => exact ⟨proc, rfl⟩
    | error f =>
      rw [afteroptions_fails _ hproc stdoutbuf] at hr
      exact absurd hr (not_redirects h hopt hproc)
  · intro hproc
    have hon : (silenced conf.args || redirected conf.args) = true → ∀ f,
        ((afteroptions mapfile conf st).run stdoutbuf).1 = .error f → f.err = errbuf st := by
      intro hopt f hf
      obtain ⟨proc, hok⟩ := hproc hopt
      rw [afteroptions_ok hok] at hf
      exact (conclude_on conf st proc stdoutbuf trivial).of_error hf
    constructor
    · intro hs
      have hnull : errbuf st = .null := by simp [errbuf, hsilent, hs]
      have herr := hon (by rw [hs]; rfl)
      rw [hnull] at herr
      refine ⟨?_, fun f hf => Ended.stdout_chunks hf (by rw [herr f hf]; decide)⟩
      cases hres : ((afteroptions mapfile conf st).run stdoutbuf).1 with
      | ok u => exact Ended.stderr_ok rfl
      | error f => exact Ended.stderr_nil rfl (by rw [herr f hres]; decide)
    · intro ho hs
      have hbuf : errbuf st = .stdout := by simp [errbuf, hsilent, hs, hstdout, ho]
      have herr := hon (by rw [ho, Bool.or_true])
      rw [hbuf] at herr
      refine ⟨?_, fun f hf => Ended.stdout_eq hf (herr f hf)⟩
      cases hres : ((afteroptions mapfile conf st).run stdoutbuf).1 with
      | ok u => exact Ended.stderr_ok rfl
      | error f => exact Ended.stderr_nil rfl (by rw [herr f hres]; decide)

/-! ## Runs -/

/-- One file, `x.pc` in a directory. -/
def onefile (dir contents path : S8) : Filemap :=
  if path == buildpath dir (S "x") then .ok contents else .notfound

/-- Evaluating the options. -/
theorem parsed_of_any (conf : Config) {C : Optstate → Bool}
    (h : (optionloop (newoptions conf.args) (newoptstate conf)).2.toOption.any C = true) :
    ∃ st, Parsed conf st ∧ C st = true := by
  unfold Parsed
  cases hopt : (optionloop (newoptions conf.args) (newoptstate conf)).2 with
  | error e => rw [hopt] at h; cases h
  | ok st => rw [hopt] at h; exact ⟨st, rfl, h⟩

/-- Evaluating the options and one argument: with the outcome after `n` turns they have
    `C`. -/
theorem processargs_runN (mapfile : S8 → Filemap) (conf : Config) (name : S8)
    {C : Optstate → Except Fail Procend → Bool} (n : Nat)
    (h : ((optionloop (newoptions conf.args) (newoptstate conf)).2.toOption.any fun st => st.args == [name] &&
      ((procMachine mapfile st.proc).runN n ⟨st.proc.frame name, [], st.proc.pkgs⟩).any (C st)) = true) :
    ∃ st r, Parsed conf st ∧ C st r = true ∧ processargs mapfile st.proc st.args = r.map fun e =>
      { st.proc with last := e.last, op := e.op, pending := e.pending, pkgs := e.pkgs } := by
  obtain ⟨st, hst, hrun⟩ := parsed_of_any _ h
  simp only [Bool.and_eq_true, beq_iff_eq] at hrun
  obtain ⟨r, hr, hC⟩ := (Option.any_eq_true _ _).mp hrun.2
  refine ⟨st, r, hst, hC, ?_⟩
  rw [hrun.1, processargs, List.foldlM_cons, process, (procMachine mapfile st.proc).run_of_runN hr]
  cases r <;> rfl

/-- A package whose `Libs` opens a quote. -/
def quotefiles : S8 → Filemap :=
  onefile (S "/lib/pkgconfig") (S "Name: x\nVersion: 1\nDescription:\nLibs: 'a\n")

theorem uconfig_redirected_quote : ∃ e,
    uconfig quotefiles (plainconf [S "--libs", S "--errors-to-stdout", S "x"]) = some e ∧
    Redirects [S "--libs", S "--errors-to-stdout", S "x"] e := by
  obtain ⟨st, r, hst, hr, hproc⟩ := processargs_runN quotefiles
    (plainconf [S "--libs", S "--errors-to-stdout", S "x"]) (S "x") (C := fun _ r => r.toOption.isSome)
    30 (by decide +kernel)
  obtain ⟨e, he, hiff⟩ : ∃ e, uconfig quotefiles _ = some e ∧ _ := uconfig_redirected_iff hst
  refine ⟨e, he, hiff.mpr ?_⟩
  intro _
  cases r with
  | error f => cases hr
  | ok e => exact ⟨_, hproc⟩

/-- `--exists` with a package that is not there: the run says so on fd 2. -/
theorem exists_missing_heard :
    ¬ ∀ (mapfile : S8 → Filemap) (conf : Config) (st : Optstate), Parsed conf st → ∀ e, uconfig mapfile conf = some e →
      Redirects conf.args e := by
  intro h
  obtain ⟨st, r, hst, hr, hproc⟩ := processargs_runN (fun _ => .notfound)
    (plainconf [S "--exists", S "nosuch"]) (S "nosuch") (C := fun _ r => r.toOption.isNone)
    9 (by decide +kernel)
  cases r with
  | ok e => cases hr
  | error f =>
    have hend := uconfig_parsed (fun _ => .notfound) hst
    rw [afteroptions_fails _ hproc] at hend
    exact not_redirects hst (by decide +kernel) hproc (h _ _ st hst _ hend)

end GnuWindows.PkgConfig
