/-
  GnuWindows.PkgConfig.Static — what `--static` adds to `--libs`.

  The option sets a local that only the output of `--libs` reads, and it commutes with every
  option. So a run with it and the run without load the same packages and print the same up
  to the arguments of `--libs`; there the one reads the fields that the other reads, and more.

  Proved:
  - `mem_keptargs`: of each argument that is not excluded, a place is printed.
  - `uconfig_static`: which arguments `--libs` prints, with `--static` and without.
-/
import GnuWindows.PkgConfig.Accepts
import GnuWindows.PkgConfig.Delivery
import GnuWindows.PkgConfig.Linkorder

namespace GnuWindows.PkgConfig

open GnuWindows.Lib.Hoare (Comp)

/-! ## The option -/

def Optstate.statically (static_ : Bool) (st : Optstate) : Optstate := { st with static_ := static_ }

def Part.static_ : Part → Bool
  | .positional _ => false
  | .option name _ => name == S "-static"

variable (b : Bool)

theorem withpath_statically (value : S8) (st : Optstate) :
    withpath value (st.statically b) = (withpath value st).map (·.statically b) := by
  have hsearch : (st.statically b).proc.search = st.proc.search := rfl
  simp only [withpath, hsearch]
  cases prependpath st.proc.search value <;> rfl

theorem definevariable_statically (value : S8) (st : Optstate) :
    definevariable value (st.statically b) = (definevariable value st).map (·.statically b) := by
  simp only [definevariable]
  split <;> rfl

/-- Only the option itself does not commute with it. -/
theorem optiontable_statically : ∀ e ∈ optiontable, e.1 = S "-static" ∨ e.2.Commutes (·.statically b) := by
  simp only [optiontable, List.forall_mem_cons]
  iterate 3 refine ⟨Or.inr trivial, ?_⟩
  iterate 5 refine ⟨Or.inr fun _ => rfl, ?_⟩
  refine ⟨Or.inr fun _ _ => rfl, Or.inl trivial, ?_⟩
  iterate 5 refine ⟨Or.inr fun _ => rfl, ?_⟩
  refine ⟨Or.inr (withpath_statically b), Or.inr fun _ _ => rfl, Or.inr fun _ => rfl,
    Or.inr (definevariable_statically b), ?_⟩
  iterate 2 refine ⟨Or.inr fun _ => rfl, ?_⟩
  iterate 4 refine ⟨Or.inr fun _ _ => rfl, ?_⟩
  iterate 8 refine ⟨Or.inr fun _ => rfl, ?_⟩
  exact List.forall_mem_nil _

theorem applyparts_statically {l : List Part} (h : ∀ part ∈ l, part.static_ = false) (st : Optstate) :
    applyparts l (st.statically b) = (applyparts l st).map (·.statically b) := by
  induction l generalizing st with
  | nil => rfl
  | cons part l ih =>
    obtain ⟨hpart, hl⟩ := List.forall_mem_cons.mp h
    have hone : applypart (st.statically b) part = (applypart st part).map (·.statically b) := by
      cases part with
      | positional arg => rfl
      | option name value =>
        exact applypart_commutes (fun _ hmem =>
          (optiontable_statically b _ hmem).resolve_left (beq_eq_false_iff_ne.mp hpart)) st value
    rw [applyparts_cons, applyparts_cons, hone]
    cases applypart st part with
    | error e => rfl
    | ok st' => exact ih hl st'

theorem outcome_statically {args : List S8} (h : ∀ part ∈ parts args, part.static_ = false) (st : Optstate) :
    outcome args (st.statically b) = (outcome args st).map (·.statically b) := by
  rw [outcome, outcome, applyparts_statically b h]
  cases applyparts (parts args) st with
  | error e => rfl
  | ok st' => cases dashdashlast args <;> rfl

theorem outcome_static {args : List S8} (h : ∀ part ∈ parts args, part.static_ = false) (st : Optstate) :
    outcome (S "--static" :: args) st = (outcome args st).map (·.statically true) := by
  have hgiven : (Part.option (S "-static") none).Given := ⟨by decide, fun _ => by decide⟩
  obtain ⟨hparts, hlast⟩ := parts_word hgiven (by decide) args
  have hparts : parts (S "--static" :: args) = .option (S "-static") none :: parts args := hparts
  have hlast : dashdashlast (S "--static" :: args) = dashdashlast args := hlast
  rw [← outcome_statically true h, outcome, outcome, hparts, hlast]
  rfl

/-! ## What is printed of the arguments -/

/-- Of each argument that is not excluded, the first place or the last one is printed. -/
theorem mem_keptargs {excluded args : List S8} {arg : S8} :
    arg ∈ keptargs excluded args ↔ arg ∉ excluded ∧ arg ∈ args := by
  have hplace (k : Nat) : (arg, k) ∈ args.zipIdx ↔ args[k]? = some arg := List.mk_mem_zipIdx_iff_getElem?
  have hkept : arg ∈ keptargs excluded args ↔ ∃ k, args[k]? = some arg ∧ Inplace excluded args k arg := by
    simp [keptargs, hplace]
  rw [hkept]
  constructor
  · rintro ⟨k, hk, hplaced⟩
    exact ⟨hplaced.1, List.mem_of_getElem? hk⟩
  · rintro ⟨hnot, hmem⟩
    have hsplit {before rest : List S8} (heq : args = before ++ arg :: rest)
        (hplaced : Inplace excluded (before ++ arg :: rest) before.length arg) :
        ∃ k, args[k]? = some arg ∧ Inplace excluded args k arg :=
      ⟨before.length, by simp [heq], heq ▸ hplaced⟩
    cases hl : startswith arg (S "-l") with
    | false =>
      obtain ⟨before, rest, heq, hfirst⟩ := List.eq_append_cons_of_mem hmem
      exact hsplit heq ((inplace_append ..).mpr ⟨hnot, .inr (.inl ⟨hl, hfirst⟩)⟩)
    | true =>
      obtain ⟨after, before, heq, hlast⟩ := List.eq_append_cons_of_mem (List.mem_reverse.mpr hmem)
      have heq : args = before.reverse ++ arg :: after.reverse := by
        rw [← List.reverse_reverse args, heq, List.reverse_append, List.reverse_cons, List.append_assoc]
        rfl
      exact hsplit heq ((inplace_append ..).mpr ⟨hnot, .inr (.inr ⟨hl, fun h => hlast (List.mem_reverse.mp h)⟩)⟩)

variable {conf : Config} {st : Optstate}

/-- The arguments that `--libs` prints. -/
def shownlibs (conf : Config) (st : Optstate) (l : List Pkg) : List S8 :=
  (keptargs (syslibs conf st) (l.flatMap fun p => (p.libfields st.static_).getD [])).filter (filterok st.filterl)

theorem mem_shownlibs {l : List Pkg} {arg : S8} : arg ∈ shownlibs conf st l ↔
    filterok st.filterl arg = true ∧ arg ∉ syslibs conf st ∧ ∃ p ∈ l, arg ∈ (p.libfields st.static_).getD [] := by
  rw [shownlibs, List.mem_filter, mem_keptargs, List.mem_flatMap, and_comm]

/-- Their text, behind `n` arguments. -/
def libstext (conf : Config) (st : Optstate) (n : Nat) (args : List S8) : S8 :=
  separated (delimiter (libswriter conf st)) n (args.map (rendered (libswriter conf st)))

theorem printlibs_run (hlibs : st.libs = true) {l : List Pkg}
    (hl : ∀ p ∈ l, (p.libfields st.static_).isSome = true) (n : Nat) (out : U8buf) :
    (printlibs conf st l n).run out =
      (.ok (n + (shownlibs conf st l).length),
        prints8 out (libstext conf st n (shownlibs conf st l))) := by
  have hprinted : written ((libswriter conf st).collect (l.flatMap fun p => (p.libfields st.static_).getD [])).args =
      shownlibs conf st l := by
    have hwriter : libswriter conf st = filterwriter st st.filterl (syslibs conf st) :=
      libswriter_eq conf st st.filterl
    rw [shownlibs, ← keptargs_filter_comm, ← written_eq fun x hm => .inr (syslibs_dir conf st x hm), hwriter]
    rfl
  obtain ⟨w, hw, -, hrun⟩ := prints_of_ok hprinted
  obtain rfl := Except.ok.inj hw
  rw [printlibs, if_pos hlibs, foldlM_collects (appendlibs_collects (errbuf st) st.static_) hl, hrun]
  rfl

/-- The output before `--libs`. -/
def beforelibs (conf : Config) (st : Optstate) (proc : Processor) : Uconfig Nat := do
  printmodversion st proc.pkgs.list
  printvariable st proc.global proc.pkgs.list
  printcflags conf st proc.pkgs.list 0

theorem report_beforelibs (conf : Config) (st : Optstate) (proc : Processor) :
    report conf st proc = beforelibs conf st proc >>= fun n =>
      printlibs conf st proc.pkgs.list n >>= fun _ => printnewline st >>= fun _ => Comp.step flush := by
  simp only [report, beforelibs, bind_assoc]

theorem report_run (hlibs : st.libs = true) {proc : Processor} {n n' : Nat} {out out' out'' : U8buf}
    (hbefore : (beforelibs conf st proc).run out = (.ok n, out'))
    (hprint : (printlibs conf st proc.pkgs.list n).run out' = (.ok n', out'')) :
    (report conf st proc).run out = (.ok (), flush (prints8 out'' (S "\n"))) := by
  have hnewline : printnewline st = print (S "\n") := if_pos (by rw [hlibs, Bool.or_true])
  rw [report_beforelibs, Comp.run_bind, hbefore]
  simp only
  rw [Comp.run_bind, hprint, hnewline]
  rfl

/-- With `--static` the output succeeds only if all fields are read to their ends. -/
theorem report_static_ok (hlibs : st.libs = true) {proc : Processor} {out : U8buf}
    (hok : ((report conf (st.statically true) proc).run out).1 = .ok ()) :
    (∃ n out', (beforelibs conf st proc).run out = (.ok n, out')) ∧
      ∀ p ∈ proc.pkgs.list, (p.libfields true).isSome = true := by
  have hsame : beforelibs conf (st.statically true) proc = beforelibs conf st proc := rfl
  rw [report_beforelibs, hsame, Comp.run_bind] at hok
  cases hbefore : (beforelibs conf st proc).run out with
  | mk r out' =>
    rw [hbefore] at hok
    cases r with
    | error f => cases hok
    | ok n =>
      refine ⟨⟨n, out', rfl⟩, ?_⟩
      simp only at hok
      have hlibs : (st.statically true).libs = true := hlibs
      rw [Comp.run_bind, printlibs, if_pos hlibs, printfields, Comp.run_bind] at hok
      cases hfields : proc.pkgs.list.foldlM (appendlibs (errbuf (st.statically true)) (st.statically true).static_)
          (libswriter conf (st.statically true)) with
      | error f =>
        rw [hfields] at hok
        cases hok
      | ok w => exact isSome_of_foldlM (appendlibs_collects _ true) hfields

/-- What `--libs` collects of a package without `--static`. -/
def Pkg.publiclibs (p : Pkg) : List S8 := if p.flags.pkgPublic then (fieldargs (bytes p.libs)).getD [] else []

theorem publiclibs_libargs {p : Pkg} {arg : S8} (h : arg ∈ p.publiclibs) : arg ∈ p.libargs := by
  unfold Pkg.publiclibs at h
  split at h
  · exact List.mem_append_left _ h
  · cases h

/-- A package whose fields are all read has read what is read without `--static`. -/
theorem libfields_false {p : Pkg} (h : (p.libfields true).isSome = true) :
    (p.libfields false).isSome = true ∧ (p.libfields false).getD [] = p.publiclibs := by
  unfold Pkg.libfields Pkg.publiclibs at *
  simp only [if_true] at h
  simp only [Bool.false_eq_true, if_false]
  cases hpublic : p.flags.pkgPublic with
  | false => exact ⟨rfl, rfl⟩
  | true =>
    cases hlibs : fieldargs (bytes p.libs) with
    | none =>
      rw [hlibs] at h
      cases h
    | some args => exact ⟨rfl, rfl⟩

/-! ## The run -/

/-- The arguments that `--libs` prints of the packages, from these of each: all that the
    filter lets through and that are no flags of system directories. -/
def Shows (conf : Config) (st : Optstate) (l : List Pkg) (given : Pkg → List S8) (args : List S8) : Prop :=
  ∀ arg, arg ∈ args ↔ filterok st.filterl arg = true ∧ arg ∉ syslibs conf st ∧ ∃ p ∈ l, arg ∈ given p

/-- The bytes on stdout: these arguments between what is printed before and a newline. -/
def Outputs (conf : Config) (st : Optstate) (e : Ended) (before : S8) (n : Nat) (args : List S8) : Prop :=
  e.stdout.flatten = before ++ libstext conf st n args ++ S "\n"

variable (st) in
theorem report_outputs {mapfile : S8 → Filemap} {conf' : Config} {e : Ended} (he : uconfig mapfile conf' = some e)
    (hlibs : st.libs = true) {proc : Processor}
    (hl : ∀ p ∈ proc.pkgs.list, (p.libfields st.static_).isSome = true) {n : Nat} {out : U8buf}
    (hbefore : (beforelibs conf st proc).run stdoutbuf = (.ok n, out))
    (hrun : (e.result, e.out) = (report conf st proc).run stdoutbuf) :
    e.status = 0 ∧ Outputs conf st e out.total n (shownlibs conf st proc.pkgs.list) := by
  rw [report_run hlibs hbefore (printlibs_run hlibs hl n out)] at hrun
  obtain ⟨hresult, hout⟩ := Prod.mk.inj hrun
  refine ⟨(status_zero e).mpr hresult, ?_⟩
  rw [Outputs, (uconfig_blocks he hresult).2, hout, (total_flush _).1, total_prints8, total_prints8]

/-- What follows the options is the report, when all packages are there and no check
    fails. -/
theorem afteroptions_report {mapfile : S8 → Filemap} {proc : Processor}
    (hproc : processargs mapfile st.proc st.args = .ok proc) (hcheck : checkall st proc = .ok ()) :
    (afteroptions mapfile conf st).run stdoutbuf = (report conf st proc).run stdoutbuf := by
  rw [afteroptions_ok hproc, conclude, hcheck]
  rfl

/-- Both runs, once the options are read. -/
theorem uconfig_statically (mapfile : S8 → Filemap) (hst : Parsed conf st)
    (hargs : ∀ part ∈ parts conf.args, part.static_ = false) :
    st.static_ = false ∧ uconfig mapfile conf = finish mapfile conf (.ok st) ∧
      uconfig mapfile { conf with args := S "--static" :: conf.args } =
        finish mapfile conf (.ok (st.statically true)) := by
  have hout : outcome conf.args (newoptstate conf) = .ok st := by
    rw [← show _ = Except.ok st from hst]
    exact (optionloop_run (newoptstate conf) (Options.Inorder.start conf.args) rfl).1.symm
  refine ⟨?_, by rw [uconfig_finish, hout], ?_⟩
  · have hsame := outcome_statically false hargs (newoptstate conf)
    have hnew : (newoptstate conf).statically false = newoptstate conf := rfl
    rw [hnew, hout] at hsame
    exact congrArg Optstate.static_ (Except.ok.inj hsame)
  · have hstatic : outcome (S "--static" :: conf.args) (newoptstate conf) = .ok (st.statically true) := by
      rw [outcome_static hargs, hout]
      rfl
    rw [← hstatic]
    exact uconfig_finish mapfile { conf with args := S "--static" :: conf.args }

/-- A run that succeeds has loaded its packages, and no check has failed. -/
theorem report_of_succeeds {mapfile : S8 → Filemap} {e : Ended} (he : finish mapfile conf (.ok st) = some e)
    (hok : e.status = 0) : ∃ proc, processargs mapfile st.proc st.args = .ok proc ∧ checkall st proc = .ok () ∧
      (e.result, e.out) = (report conf st proc).run stdoutbuf := by
  rw [status_zero] at hok
  cases hproc : processargs mapfile st.proc st.args with
  | error f =>
    rw [finish, afteroptions_fails conf hproc] at he
    obtain rfl := Option.some.inj he
    cases hok
  | ok proc =>
    cases hcheck : checkall st proc with
    | error f =>
      rw [finish, afteroptions_ok hproc, conclude, hcheck] at he
      obtain rfl := Option.some.inj he
      cases hok
    | ok u =>
      rw [finish, afteroptions_report hproc hcheck] at he
      obtain rfl := Option.some.inj he
      exact ⟨proc, rfl, hcheck, rfl⟩

/-- For all files, configurations and arguments with `--libs` and without `--static`: when
    the run with `--static` succeeds, so does the one without, with the same packages. The
    outputs are the same but for the arguments of `--libs`. Those without are the ones of
    the Libs of public packages; those with it are the ones of the Libs and Libs.private
    of all packages, the ones without among them. The same arguments are left out of both,
    by a filter or, unless these are wanted, as the -L flags of the system directories. -/
theorem uconfig_static (mapfile : S8 → Filemap) (conf : Config) {st : Optstate} (hst : Parsed conf st)
    (hargs : ∀ part ∈ parts conf.args, part.static_ = false) (hlibs : st.libs = true) {e' : Ended}
    (he' : uconfig mapfile { conf with args := S "--static" :: conf.args } = some e') (hok : e'.status = 0) :
    ∃ e proc before n shown all, uconfig mapfile conf = some e ∧ e.status = 0 ∧
      processargs mapfile st.proc st.args = .ok proc ∧
      Outputs conf st e before n shown ∧ Outputs conf st e' before n all ∧
      Shows conf st proc.pkgs.list Pkg.publiclibs shown ∧ Shows conf st proc.pkgs.list Pkg.libargs all ∧
      ∀ arg ∈ shown, arg ∈ all := by
  obtain ⟨hfalse, hrun, hrun'⟩ := uconfig_statically mapfile hst hargs
  obtain ⟨proc, hproc', hcheck', hreport'⟩ := report_of_succeeds (hrun'.symm.trans he') hok
  have hproc : processargs mapfile st.proc st.args = .ok proc := hproc'
  have hcheck : checkall st proc = .ok () := hcheck'
  obtain ⟨⟨n, out, hbefore⟩, hall⟩ := report_static_ok hlibs
    (show ((report conf (st.statically true) proc).run stdoutbuf).1 = .ok () by
      rw [← hreport']
      exact (status_zero e').mp hok)
  have hpublic : ∀ p ∈ proc.pkgs.list, (p.libfields st.static_).isSome = true := fun p hmem => by
    rw [hfalse]
    exact (libfields_false (hall p hmem)).1
  have he : uconfig mapfile conf =
      some ⟨((report conf st proc).run stdoutbuf).2, ((report conf st proc).run stdoutbuf).1⟩ := by
    rw [hrun, finish, afteroptions_report hproc hcheck]
  obtain ⟨hzero, houtputs⟩ := report_outputs st he hlibs hpublic hbefore rfl
  obtain ⟨-, houtputs'⟩ := report_outputs (st.statically true) he' hlibs hall hbefore hreport'
  have hshows : Shows conf st proc.pkgs.list Pkg.publiclibs (shownlibs conf st proc.pkgs.list) := by
    intro arg
    rw [mem_shownlibs, hfalse]
    refine and_congr_right fun _ => and_congr_right fun _ => exists_congr fun p => and_congr_right fun hmem => ?_
    rw [(libfields_false (hall p hmem)).2]
  have hshows' : Shows conf st proc.pkgs.list Pkg.libargs (shownlibs conf (st.statically true) proc.pkgs.list) := by
    intro arg
    rw [mem_shownlibs]
    refine and_congr_right fun _ => and_congr_right fun _ => exists_congr fun p => and_congr_right fun hmem => ?_
    rw [show (st.statically true).static_ = true from rfl, libfields_static (hall p hmem)]
  refine ⟨_, proc, out.total, n, _, _, he, hzero, hproc, houtputs, houtputs', hshows, hshows',
    fun arg harg => ?_⟩
  obtain ⟨hfilter, hnot, p, hmem, hgiven⟩ := (hshows arg).mp harg
  exact (hshows' arg).mpr ⟨hfilter, hnot, p, hmem, publiclibs_libargs hgiven⟩

/-- A package with a private flag. -/
def privatefiles : S8 → Filemap :=
  onefile (S "/lib/pkgconfig") (S "Name: x\nVersion: 1\nDescription:\nLibs: -lx\nLibs.private: -ly\n")

/-- The run of `x` with `--static` after these options, and the packages they ask for. -/
def staticsucceeds (st : Optstate) (r : Except Fail Procend) : Bool :=
  r.toOption.any fun e =>
    let proc := { st.proc with last := e.last, op := e.op, pending := e.pending, pkgs := e.pkgs }
    let run := (conclude (plainconf [S "--libs", S "x"]) (st.statically true) proc).run stdoutbuf
    st.libs && (Ended.status ⟨run.2, run.1⟩ == 0)

theorem uconfig_static_private : ∃ st e e' before n shown all,
    uconfig privatefiles (plainconf [S "--libs", S "x"]) = some e ∧
    uconfig privatefiles (plainconf [S "--static", S "--libs", S "x"]) = some e' ∧
    Outputs (plainconf [S "--libs", S "x"]) st e before n shown ∧
    Outputs (plainconf [S "--libs", S "x"]) st e' before n all ∧ ∀ arg ∈ shown, arg ∈ all := by
  obtain ⟨st, r, hst, hr, hproc⟩ := processargs_runN privatefiles (plainconf [S "--libs", S "x"]) (S "x")
    (C := staticsucceeds) 30 (by decide +kernel)
  have hargs : ∀ part ∈ parts [S "--libs", S "x"], part.static_ = false := by decide +kernel
  obtain ⟨-, -, hrun⟩ := uconfig_statically privatefiles hst hargs
  cases r with
  | error f => cases hr
  | ok p =>
    have hproc' : processargs privatefiles (st.statically true).proc (st.statically true).args = .ok _ := hproc
    rw [finish, afteroptions_ok hproc'] at hrun
    simp only [staticsucceeds, Except.toOption, Option.any_some, Bool.and_eq_true, beq_iff_eq] at hr
    obtain ⟨e, -, before, n, shown, all, he, -, -, houtputs, houtputs', -, -, hsub⟩ :=
      uconfig_static privatefiles (plainconf [S "--libs", S "x"]) hst hargs hr.1 hrun hr.2
    exact ⟨st, e, _, before, n, shown, all, he, hrun, houtputs, houtputs', hsub⟩

end GnuWindows.PkgConfig
