/-
  GnuWindows.PkgConfig.Silence — what the options about messages leave alone.

  The buffer for messages is handed to every function that can fail. None looks at it: with
  another buffer each does the same, and fails with the same text (`Moved`, `Says`).

  Proved: `uconfig_messages`, `--exists`, `--silence-errors` and `--errors-to-stdout`
  change nothing but where a message goes, wherever they stand.
-/
import GnuWindows.Lib.Relate
import GnuWindows.PkgConfig.Diagnostics
import GnuWindows.PkgConfig.Shuffle

namespace GnuWindows.PkgConfig

open GnuWindows.Lib.BoundedStack
open GnuWindows.Lib.Hoare (Alike Comp Twins)

/-! ## Another buffer -/

/-- The same message on another buffer. -/
def Fail.on (err : Errbuf) (f : Fail) : Fail := { f with err := err }

/-- The second failure is the first on the buffer `err`. -/
def Moved (err : Errbuf) (f g : Fail) : Prop := g = f.on err

theorem Moved.diagnose (err err' : Errbuf) (message : S8) :
    Moved err' (PkgConfig.diagnose err message) (PkgConfig.diagnose err' message) := rfl

variable {err err' : Errbuf}

def Expanded.on (err : Errbuf) (e : Expanded) : Expanded := ⟨e.out, e.fail.map (Fail.on err)⟩

theorem expandStep_on (err err' : Errbuf) (global : Env) (p : Pkg) (st : ExpandState) :
    expandStep err' global p st = (expandStep err global p st).map id (Expanded.on err') := by
  unfold expandStep
  cases st.stack with
  | nil => rfl
  | cons s rest =>
    simp only
    split
    · rfl
    · split
      · rfl
      · split <;> rfl
    · rfl

theorem expand_on (err err' : Errbuf) (global : Env) (p : Pkg) (str : S8) :
    expand err' global p str = (expand err global p str).on err' := by
  rw [expand_run, expand_run]
  exact (expandMachine err global p).run_image (expandMachine err' global p) (I := fun _ => True) id (Expanded.on err')
    (fun _ _ _ _ => trivial) (fun st _ => expandStep_on err err' global p st) _ trivial

theorem appendfield_moved (w : Fieldwriter) (p : Pkg) (field : S8) :
    Alike (Moved err') (appendfield err w p field) (appendfield err' w p field) := by
  induction w, field using appendfield.induct with
  | case1 w =>
    rw [appendfield.eq_1 err w, dif_pos rfl, appendfield.eq_1 err' w, dif_pos rfl]
    exact .ok
  | case2 w field hf r hok ih =>
    rw [appendfield.eq_1 err w p field, dif_neg hf, dif_pos hok, appendfield.eq_1 err' w p field, dif_neg hf,
      dif_pos hok]
    exact ih
  | case3 w field hf r hok =>
    rw [appendfield.eq_1 err w p field, dif_neg hf, dif_neg hok, appendfield.eq_1 err' w p field, dif_neg hf,
      dif_neg hok]
    exact .error rfl

theorem appendlibs_moved (static_ : Bool) (w : Fieldwriter) (p : Pkg) :
    Alike (Moved err') (appendlibs err static_ w p) (appendlibs err' static_ w p) := by
  unfold appendlibs
  split
  · exact (appendfield_moved _ _ _).bind fun _ => appendfield_moved _ _ _
  · split
    · exact appendfield_moved _ _ _
    · exact .ok

theorem checkversions_moved (op : Versop) (version : S8) (l : List Pkg) :
    Alike (Moved err') (checkversions err op version l) (checkversions err' op version l) := by
  unfold checkversions
  split
  · exact .ok
  · refine .forM fun p => ?_
    split
    · exact .ok
    · exact .error rfl

/-! ## The output -/

theorem printmodversion_twins {E : Fail → Fail → Prop} (st : Optstate) (l : List Pkg) :
    Twins E (printmodversion st l) (printmodversion st l) := by
  unfold printmodversion
  split
  · refine .forM fun p => ?_
    split
    · exact Twins.step.bind fun _ => .step
    · exact .pure
  · exact .pure

theorem printexpanded_moved (global : Env) (p : Pkg) (str : S8) :
    Twins (Moved err') (printexpanded err global p str) (printexpanded err' global p str) := by
  unfold printexpanded
  rw [expand_on err err']
  refine Twins.step.bind fun _ => ?_
  simp only [Expanded.on]
  cases (expand err global p str).fail with
  | none => exact .pure
  | some f => exact .throw rfl

variable {st : Optstate} {s t : Bool}

/-- The buffer of messages once more of them are disabled or redirected. -/
abbrev altered (st : Optstate) (s t : Bool) : Errbuf := errbuf (st.also [] s t)

theorem printvariable_moved (global : Env) (l : List Pkg) :
    Twins (Moved (altered st s t)) (printvariable st global l) (printvariable (st.also [] s t) global l) := by
  have hvariable : (st.also [] s t).variable_ = st.variable_ := rfl
  unfold printvariable
  rw [hvariable]
  cases st.variable_ with
  | none => exact .pure
  | some name =>
    refine .forM fun p => ?_
    split
    · split
      · exact (printexpanded_moved _ _ _).bind fun _ => .step
      · exact .pure
    · exact .pure

theorem printfields_moved {fields fields' : Except Fail Fieldwriter} (h : Alike (Moved err') fields fields')
    (argcount : Nat) : Twins (Moved err') (printfields fields argcount) (printfields fields' argcount) :=
  (Twins.ofExcept h).bind fun _ => Twins.step.bind fun _ => .pure

theorem printcflags_moved (conf : Config) (l : List Pkg) (argcount : Nat) :
    Twins (Moved (altered st s t)) (printcflags conf st l argcount) (printcflags conf (st.also [] s t) l argcount) := by
  unfold printcflags
  show Twins _ _ (if st.cflags then _ else _)
  split
  · exact printfields_moved (Alike.foldlM (fun w p => appendfield_moved w p _) l _) argcount
  · exact .pure

theorem printlibs_moved (conf : Config) (l : List Pkg) (argcount : Nat) :
    Twins (Moved (altered st s t)) (printlibs conf st l argcount) (printlibs conf (st.also [] s t) l argcount) := by
  unfold printlibs
  show Twins _ _ (if st.libs then _ else _)
  split
  · exact printfields_moved (Alike.foldlM (fun w p => appendlibs_moved st.static_ w p) l _) argcount
  · exact .pure

theorem printnewline_twins {E : Fail → Fail → Prop} (st : Optstate) : Twins E (printnewline st) (printnewline st) := by
  unfold printnewline
  split
  · exact .step
  · exact .pure

theorem report_moved (conf : Config) (proc : Processor) :
    Twins (Moved (altered st s t)) (report conf st proc) (report conf (st.also [] s t) proc) :=
  (printmodversion_twins _ _).bind fun _ => (printvariable_moved _ _).bind fun _ =>
    (printcflags_moved _ _ _).bind fun _ => (printlibs_moved _ _ _).bind fun _ =>
      (printnewline_twins _).bind fun _ => .step

theorem checkall_moved (proc : Processor) :
    Alike (Moved (altered st s t)) (checkall st proc) (checkall (st.also [] s t) proc) := by
  refine Alike.bind ?_ fun _ => Alike.bind ?_ fun _ => checkversions_moved _ _ _
  · unfold endprocessor
    split
    · exact .error rfl
    · exact .ok
  · unfold checkcount
    split
    · exact .error rfl
    · exact .ok

theorem conclude_moved (conf : Config) (proc : Processor) :
    Twins (Moved (altered st s t)) (conclude conf st proc) (conclude conf (st.also [] s t) proc) :=
  (Twins.ofExcept (checkall_moved proc)).bind fun _ => report_moved conf proc

/-! ## The options -/

/-- The options about messages alone. -/
def messages : List S8 := [S "-exists", S "-silence-errors", S "-errors-to-stdout"]

def Part.message : Part → Bool
  | .positional _ => false
  | .option name _ => messages.contains name

theorem applypart_message {name : S8} (h : messages.contains name = true) :
    ∃ s t, ∀ value st, applypart st (.option name value) = .ok (st.also [] s t) := by
  have halso (s t : Bool) (st : Optstate) :
      st.also [] s t = { st with silent := st.silent || s, err_to_stdout := st.err_to_stdout || t } := by
    simp only [Optstate.also, List.append_nil]
  rw [List.contains_iff_mem] at h
  simp only [messages, List.mem_cons, List.not_mem_nil, or_false] at h
  rcases h with rfl | rfl | rfl
  · refine ⟨true, false, fun value st => ?_⟩
    rw [halso, Bool.or_true, Bool.or_false]
    rfl
  · refine ⟨true, false, fun value st => ?_⟩
    rw [halso, Bool.or_true, Bool.or_false]
    rfl
  · refine ⟨false, true, fun value st => ?_⟩
    rw [halso, Bool.or_true, Bool.or_false]
    rfl

/-- The options about messages take effect as if they came last. -/
theorem applyparts_messages {l : List Part} (hopt : ∀ part ∈ l, part.isoption = true) :
    ∃ s t, ∀ st, applyparts l st = (applyparts (l.filter fun part => !part.message) st).map (·.also [] s t) := by
  induction l with
  | nil => exact ⟨false, false, fun st => congrArg Except.ok (also_nil st).symm⟩
  | cons part l ih =>
    obtain ⟨hpart, hl⟩ := List.forall_mem_cons.mp hopt
    obtain ⟨s, t, hrest⟩ := ih hl
    cases part with
    | positional arg => cases hpart
    | option name value =>
      cases hmessage : messages.contains name with
      | true =>
        obtain ⟨s', t', happly⟩ := applypart_message hmessage
        refine ⟨s' || s, t' || t, fun st => ?_⟩
        have hfilter : ∀ part ∈ l.filter fun part => !part.message, part.isoption = true :=
          fun part hp => hl part (List.mem_filter.mp hp).1
        rw [List.filter_cons_of_neg (by rw [Part.message, hmessage]; exact Bool.false_ne_true), applyparts_cons, happly]
        simp only
        rw [hrest, applyparts_also hfilter]
        cases applyparts (l.filter fun part => !part.message) st with
        | error e => rfl
        | ok st' => exact congrArg Except.ok (also_also st' [] [] s' t' s t)
      | false =>
        refine ⟨s, t, fun st => ?_⟩
        rw [List.filter_cons_of_pos (by rw [Part.message, hmessage]; rfl), applyparts_cons, applyparts_cons]
        cases applypart st (.option name value) with
        | error e => rfl
        | ok st' => exact hrest st'

theorem outcome_messages {args args' : List S8} (hargs : positional args' = positional args)
    (hopts : options args' = (options args).filter fun part => !part.message)
    (hlast : dashdashlast args' = dashdashlast args) :
    ∃ s t, ∀ st, outcome args st = (outcome args' st).map (·.also [] s t) := by
  obtain ⟨s, t, hmap⟩ := applyparts_messages (l := options args) fun _ hp => (List.mem_filter.mp hp).2
  refine ⟨s, t, fun st => ?_⟩
  have hparts : applyparts (parts args) st = (applyparts (parts args') st).map (·.also [] s t) := by
    rw [applyparts_options (parts args), applyparts_options (parts args')]
    change (applyparts (options args) st).map (·.also (positional args) false false) =
      ((applyparts (options args') st).map (·.also (positional args') false false)).map (·.also [] s t)
    rw [hmap, hargs, hopts]
    cases applyparts ((options args).filter fun part => !part.message) st with
    | error e => rfl
    | ok st' =>
      refine congrArg Except.ok ?_
      beta_reduce
      rw [also_also, also_also, List.append_nil, List.nil_append, Bool.false_or, Bool.false_or, Bool.or_false,
        Bool.or_false]
  rw [outcome, outcome, hparts, hlast]
  cases applyparts (parts args') st with
  | error e => rfl
  | ok st' => cases dashdashlast args <;> rfl

/-! ## The runs -/

/-- The second run ends as the first does, with the same message if any, and says nothing on
    fd 2 that the first does not. -/
structure Hushes (e e' : Ended) : Prop where
  status : e'.status = e.status
  out : e'.out = e.out
  text : ∀ f f', e.result = .error f → e'.result = .error f' → f'.text = f.text
  stderr : e'.stderr = e.stderr ∨ e'.stderr = []

theorem Hushes.refl (e : Ended) : Hushes e e where
  status := rfl
  out := rfl
  text f f' hf hf' := by rw [Except.error.inj (hf.symm.trans hf')]
  stderr := Or.inl rfl

theorem altered_ne (st : Optstate) {s t : Bool} (h : (s || t) = true) : altered st s t ≠ .stderr := by
  have hst : (st.silent || s) = true ∨ (st.err_to_stdout || t) = true := by
    rcases Bool.or_eq_true_iff.mp h with rfl | rfl
    · exact Or.inl (Bool.or_true _)
    · exact Or.inr (Bool.or_true _)
  show (if (st.silent || s) = true then Errbuf.null
    else if (st.err_to_stdout || t) = true then .stdout else .stderr) ≠ _
  split
  · exact Errbuf.noConfusion
  · rename_i hs
    rw [if_pos (hst.resolve_left hs)]
    exact Errbuf.noConfusion

theorem Hushes.of_moved {r r' : Except Fail Unit} {out : U8buf} (h : Alike (Moved err) r r') (herr : err ≠ .stderr) :
    Hushes ⟨out, r⟩ ⟨out, r'⟩ := by
  rcases h.inversion with ⟨u, rfl, rfl⟩ | ⟨f, f', rfl, rfl, hmoved⟩
  · exact .refl _
  · obtain rfl : f' = f.on err := hmoved
    refine ⟨rfl, rfl, fun g g' hg hg' => ?_, Or.inr (Ended.stderr_nil rfl herr)⟩
    obtain rfl := Except.error.inj hg
    obtain rfl := Except.error.inj hg'
    rfl

theorem afteroptions_hushes (mapfile : S8 → Filemap) (conf : Config) (st : Optstate) (s t : Bool) (out : U8buf) :
    Hushes ⟨((afteroptions mapfile conf st).run out).2, ((afteroptions mapfile conf st).run out).1⟩
      ⟨((afteroptions mapfile conf (st.also [] s t)).run out).2,
        ((afteroptions mapfile conf (st.also [] s t)).run out).1⟩ := by
  cases hst : s || t with
  | false =>
    obtain ⟨rfl, rfl⟩ : s = false ∧ t = false := Bool.or_eq_false_iff.mp hst
    rw [also_nil]
    exact .refl _
  | true =>
    have hargs : processargs mapfile (st.also [] s t).proc (st.also [] s t).args =
        processargs mapfile st.proc st.args := congrArg _ (List.append_nil st.args)
    cases hproc : processargs mapfile st.proc st.args with
    | error f =>
      rw [afteroptions_fails conf hproc, afteroptions_fails conf (hargs.trans hproc)]
      exact .refl _
    | ok proc =>
      rw [afteroptions_ok hproc, afteroptions_ok (hargs.trans hproc)]
      obtain ⟨hres, hout⟩ := (conclude_moved conf proc : Twins (Moved (altered st s t)) _ _) out
      rw [← hout]
      exact .of_moved hres (altered_ne st hst)

/-- For all files and every command line: without its `--exists`, `--silence-errors` and
    `--errors-to-stdout`, however many and wherever they stand, and with the rest as it is,
    the run has a meaning exactly when it has one with them; it ends with the same status
    and the same text printed on the buffer of stdout, and a failure has the same message.
    With them fd 2 gets what it gets without, or nothing. -/
theorem uconfig_messages (mapfile : S8 → Filemap) (conf : Config) (args : List S8)
    (hargs : positional args = positional conf.args)
    (hopts : options args = (options conf.args).filter fun part => !part.message)
    (hlast : dashdashlast args = dashdashlast conf.args) :
    Option.Rel Hushes (uconfig mapfile { conf with args := args }) (uconfig mapfile conf) := by
  obtain ⟨s, t, hout⟩ := outcome_messages hargs hopts hlast
  have hplain : uconfig mapfile { conf with args := args } = finish mapfile conf (outcome args (newoptstate conf)) :=
    uconfig_finish mapfile { conf with args := args }
  rw [hplain, uconfig_finish mapfile conf, hout]
  cases outcome args (newoptstate conf) with
  | ok st => exact .some (afteroptions_hushes mapfile conf st s t stdoutbuf)
  | error e =>
    cases e with
    | exit text => exact .some (.refl _)
    | fail f => exact .some (.refl _)
    | outofbounds => exact .none
    | nullpointer => exact .none

theorem uconfig_messages_libs :
    Option.Rel Hushes (uconfig quotefiles (plainconf [S "--libs", S "x"]))
      (uconfig quotefiles (plainconf [S "--silence-errors", S "--libs", S "x", S "--errors-to-stdout"])) :=
  uconfig_messages quotefiles (plainconf [S "--silence-errors", S "--libs", S "x", S "--errors-to-stdout"])
    [S "--libs", S "x"] (by decide +kernel) (by decide +kernel) (by decide +kernel)

end GnuWindows.PkgConfig
