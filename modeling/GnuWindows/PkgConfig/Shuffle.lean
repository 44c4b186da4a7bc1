/-
  GnuWindows.PkgConfig.Shuffle — command lines that mean the same.

  No option looks at the positional arguments, and none at where messages go: what an
  option does commutes with adding arguments and with `silent` and `err_to_stdout`
  (`optiontable_commutes`).

  Proved:
  - `uconfig_shuffle`: packages may stand before, after and between the options.
  - `uconfig_normal`: a run is the one of the options, each with its value attached, a `--`
    and the packages.
-/
import GnuWindows.PkgConfig.OptionsProofs
import GnuWindows.PkgConfig.SearchList
import GnuWindows.PkgConfig.Uconfig

namespace GnuWindows.PkgConfig

/-! ## What commutes with the options -/

/-- Arguments are added, and the messages disabled or redirected. -/
def Optstate.also (l : List S8) (silent err_to_stdout : Bool) (st : Optstate) : Optstate :=
  { st with
    args := st.args ++ l
    silent := st.silent || silent
    err_to_stdout := st.err_to_stdout || err_to_stdout }

def Optaction.Commutes (u : Optstate → Optstate) : Optaction → Prop
  | .flag f => ∀ st, f (u st) = u (f st)
  | .value f => ∀ value st, f value (u st) = (f value st).map u
  | .exit _ => True

variable {l : List S8} {b t : Bool}

theorem withpath_also (value : S8) (st : Optstate) :
    withpath value (st.also l b t) = (withpath value st).map (·.also l b t) := by
  have hproc : (st.also l b t).proc = st.proc := rfl
  simp only [withpath, hproc]
  cases prependpath st.proc.search value <;> rfl

theorem definevariable_also (value : S8) (st : Optstate) :
    definevariable value (st.also l b t) = (definevariable value st).map (·.also l b t) := by
  simp only [definevariable]
  split <;> rfl

variable (l b t) in
/-- An option that writes what `also` does sets it to `true`, and none reads it. -/
theorem optiontable_commutes : ∀ e ∈ optiontable, e.2.Commutes (·.also l b t) := by
  simp only [optiontable, List.forall_mem_cons, Optaction.Commutes]
  refine ⟨trivial, trivial, trivial, ?_⟩
  iterate 5 refine ⟨fun _ => rfl, ?_⟩
  refine ⟨fun _ _ => rfl, ?_⟩
  iterate 6 refine ⟨fun _ => rfl, ?_⟩
  refine ⟨withpath_also, fun _ _ => rfl, fun _ => rfl, definevariable_also, ?_⟩
  iterate 2 refine ⟨fun _ => rfl, ?_⟩
  iterate 4 refine ⟨fun _ _ => rfl, ?_⟩
  iterate 8 refine ⟨fun _ => rfl, ?_⟩
  exact List.forall_mem_nil _

/-- An option that commutes with `u` takes effect before or after it. -/
theorem applypart_commutes {u : Optstate → Optstate} {name : S8}
    (h : ∀ action, (name, action) ∈ optiontable → action.Commutes u) (st : Optstate) (value : Option S8) :
    applypart (u st) (.option name value) = (applypart st (.option name value)).map u := by
  simp only [applypart]
  cases hl : optiontable.lookup name with
  | none => rfl
  | some action =>
    obtain ⟨l₁, l₂, htable, -⟩ := List.lookup_eq_some_iff.mp hl
    have hcomm := h action (by rw [htable]; simp)
    cases action with
    | exit text => rfl
    | flag f => exact congrArg Except.ok (hcomm st)
    | value f =>
      cases value with
      | none => rfl
      | some value => exact hcomm value st

theorem applypart_also (st : Optstate) (name : S8) (value : Option S8) :
    applypart (st.also l b t) (.option name value) = (applypart st (.option name value)).map (·.also l b t) :=
  applypart_commutes (fun _ hmem => optiontable_commutes l b t _ hmem) st value

/-! ## The positional arguments apart -/

deriving instance DecidableEq for Part

def Part.isoption : Part → Bool
  | .positional _ => false
  | .option _ _ => true

/-- The options, with their values. -/
def options (args : List S8) : List Part := (parts args).filter Part.isoption

theorem also_also (st : Optstate) (l l' : List S8) (s t s' t' : Bool) :
    (st.also l s t).also l' s' t' = st.also (l ++ l') (s || s') (t || t') := by
  simp only [Optstate.also, List.append_assoc, Bool.or_assoc]

theorem also_nil (st : Optstate) : st.also [] false false = st := by
  simp only [Optstate.also, List.append_nil, Bool.or_false]

theorem applyparts_also {parts : List Part} (hopt : ∀ part ∈ parts, part.isoption = true) (st : Optstate) :
    applyparts parts (st.also l b t) = (applyparts parts st).map (·.also l b t) := by
  induction parts generalizing st with
  | nil => rfl
  | cons part parts ih =>
    obtain ⟨hpart, hparts⟩ := List.forall_mem_cons.mp hopt
    cases part with
    | positional arg => cases hpart
    | option name value =>
      rw [applyparts_cons, applyparts_cons, applypart_also]
      cases applypart st (.option name value) with
      | error e => rfl
      | ok st' => exact ih hparts st'

/-- The options take effect as if they came first. -/
theorem applyparts_options (parts : List Part) (st : Optstate) :
    applyparts parts st =
      (applyparts (parts.filter Part.isoption) st).map (·.also (parts.filterMap Part.positional?) false false) := by
  induction parts generalizing st with
  | nil => exact congrArg Except.ok (also_nil st).symm
  | cons part parts ih =>
    rw [applyparts_cons]
    cases part with
    | positional arg =>
      have hargs : (Part.positional arg :: parts).filterMap Part.positional? =
          [arg] ++ parts.filterMap Part.positional? := rfl
      have hst : { st with args := st.args ++ [arg] } = st.also [arg] false false := by
        simp only [Optstate.also, Bool.or_false]
      have hopt : ∀ part ∈ parts.filter Part.isoption, part.isoption = true := fun _ hp => (List.mem_filter.mp hp).2
      rw [hargs, List.filter_cons_of_neg (by exact Bool.false_ne_true)]
      simp only [applypart]
      rw [ih, hst, applyparts_also hopt]
      cases applyparts (parts.filter Part.isoption) st with
      | error e => rfl
      | ok st' => exact congrArg Except.ok (also_also st' [arg] _ false false false false)
    | option name value =>
      have hargs : (Part.option name value :: parts).filterMap Part.positional? =
          parts.filterMap Part.positional? := rfl
      rw [hargs, List.filter_cons_of_pos (by rfl), applyparts_cons]
      cases applypart st (.option name value) with
      | error e => rfl
      | ok st' => exact ih st'

theorem outcome_congr {args args' : List S8} (hargs : positional args' = positional args)
    (hopts : options args' = options args) (hlast : dashdashlast args' = dashdashlast args) (st : Optstate) :
    outcome args' st = outcome args st := by
  have hparts : applyparts (parts args') st = applyparts (parts args) st := by
    rw [applyparts_options (parts args'), applyparts_options (parts args)]
    exact congrArg₂ (fun l opts => (applyparts opts st).map (·.also l false false)) hargs hopts
  rw [outcome, outcome, hparts, hlast]

/-- What a run is once the options are read. -/
def finish (mapfile : S8 → Filemap) (conf : Config) : Except Halt Optstate → Option Ended
  | .ok st => some ⟨((afteroptions mapfile conf st).run stdoutbuf).2, ((afteroptions mapfile conf st).run stdoutbuf).1⟩
  | .error (.exit text) => some ⟨flush (prints8 stdoutbuf text), .ok ()⟩
  | .error (.fail f) => some ⟨stdoutbuf, .error f⟩
  | .error .outofbounds => none
  | .error .nullpointer => none

theorem uconfig_finish (mapfile : S8 → Filemap) (conf : Config) :
    uconfig mapfile conf = finish mapfile conf (outcome conf.args (newoptstate conf)) := by
  have hrun := (optionloop_run (newoptstate conf) (Options.Inorder.start conf.args) rfl).1
  rw [uconfig, hrun]
  rfl

/-- For all files and every two command lines with the same packages in the same order and
    the same options with the same values in the same order, however the ones stand between
    the others: the runs are the same. A `--` with nothing after it is in both or in none. -/
theorem uconfig_shuffle (mapfile : S8 → Filemap) (conf : Config) (args : List S8)
    (hargs : positional args = positional conf.args) (hopts : options args = options conf.args)
    (hlast : dashdashlast args = dashdashlast conf.args) :
    uconfig mapfile { conf with args := args } = uconfig mapfile conf := by
  rw [uconfig_finish mapfile conf, ← outcome_congr hargs hopts hlast]
  exact uconfig_finish mapfile { conf with args := args }

theorem uconfig_shuffle_libs :
    uconfig (fun _ => .notfound) (plainconf [S "a", S "--with-path", S "/x", S "b", S "--libs"]) =
      uconfig (fun _ => .notfound) (plainconf [S "--with-path", S "/x", S "--libs", S "a", S "b"]) :=
  uconfig_shuffle (fun _ => .notfound) (plainconf [S "--with-path", S "/x", S "--libs", S "a", S "b"])
    [S "a", S "--with-path", S "/x", S "b", S "--libs"] (by decide +kernel)
    (by decide +kernel) (by decide +kernel)

/-! ## The normal form -/

/-- The one argument that gives a part. -/
def Part.word : Part → S8
  | .positional arg => arg
  | .option name none => 0x2d :: name
  | .option name (some value) => 0x2d :: (name ++ 0x3d :: value)

/-- Options first, each with its value attached. -/
def normalform (args : List S8) : List S8 :=
  (options args).map Part.word ++ if positional args = [] then [] else S "--" :: positional args

/-- An option that takes a value and has none. -/
def Part.lacks : Part → Bool
  | .positional _ => false
  | .option name value =>
    match optiontable.lookup name with
    | some (.value _) => value.isNone
    | _ => false

/-- An option as an argument can give it. -/
def Part.Given : Part → Prop
  | .positional _ => False
  | .option name value => 0x3d ∉ name ∧ (value = none → name ≠ [] ∧ name ≠ S "-")

theorem optresult_attached {name : S8} (hname : 0x3d ∉ name) (value : S8) :
    optresult (0x2d :: (name ++ 0x3d :: value)) = ⟨name, some value, true, true⟩ := by
  simp only [optresult, List.drop_one, List.tail_cons, s8cut_append_cons hname, if_true]

theorem optresult_alone {name : S8} (hname : 0x3d ∉ name) : optresult (0x2d :: name) = ⟨name, none, true, true⟩ := by
  simp only [optresult, List.drop_one, List.tail_cons, s8cut_of_not_mem hname, Bool.false_eq_true, if_false]

theorem optresult_word {name : S8} {value : Option S8} (h : (Part.option name value).Given) :
    optresult (Part.option name value).word = ⟨name, value, true, true⟩ := by
  cases value with
  | none => exact optresult_alone h.1
  | some value => exact optresult_attached h.1 value

theorem plain_cons {c : UInt8} {rest : S8} : plain (c :: rest) = false ↔ rest ≠ [] ∧ c = 0x2d := by
  rw [plain, Bool.or_eq_false_iff, decide_eq_false_iff_not]
  constructor
  · rintro ⟨hlen, hc⟩
    exact ⟨fun hnil => hlen (by rw [hnil]; exact Nat.one_lt_two), Option.some.inj (bne_eq_false_iff_eq.mp hc)⟩
  · rintro ⟨hne, rfl⟩
    have := List.length_pos_iff.mpr hne
    exact ⟨by rw [List.length_cons]; omega, rfl⟩

/-- Every argument that is an option is the word of one. -/
theorem option_word {arg : S8} (hplain : plain arg = false) (harg : (arg == S "--") = false) :
    ∃ name value, (Part.option name value).Given ∧ arg = (Part.option name value).word := by
  cases arg with
  | nil => cases hplain
  | cons c rest =>
    obtain ⟨hne, rfl⟩ := plain_cons.mp hplain
    by_cases hmem : 0x3d ∈ rest
    · obtain ⟨name, value, rfl, hname⟩ := List.eq_append_cons_of_mem hmem
      exact ⟨name, some value, ⟨hname, fun hnone => by cases hnone⟩, rfl⟩
    · refine ⟨rest, none, ⟨hmem, fun _ => ⟨?_, ?_⟩⟩, rfl⟩
      · exact hne
      · rintro rfl
        exact absurd harg (by decide)

/-- An option that lacks no value reads no other argument. -/
theorem optvalue_word {name : S8} {value : Option S8} (h : (Part.option name value).Given)
    (hlacks : (Part.option name value).lacks = false) (args : List S8) :
    optvalue (Part.option name value).word args = (value, args) := by
  have hnext : takesnext (Part.option name value).word = false := by
    rw [takesnext, optresult_word h]
    exact hlacks
  rw [optvalue, hnext, optresult_word h]
  rfl

/-- The word of an option is read as an option. -/
theorem word_isoption {name : S8} {value : Option S8} (h : (Part.option name value).Given) :
    plain (Part.option name value).word = false ∧ ((Part.option name value).word == S "--") = false := by
  obtain ⟨hname, hnone⟩ := h
  cases value with
  | some value =>
    have hrest : name ++ 0x3d :: value ≠ [] := List.append_ne_nil_of_right_ne_nil _ (List.cons_ne_nil _ _)
    refine ⟨plain_cons.mpr ⟨hrest, rfl⟩, beq_eq_false_iff_ne.mpr fun he => ?_⟩
    have hmem : 0x3d ∈ S "--" := he ▸ by simp [Part.word]
    exact absurd hmem (by decide)
  | none =>
    obtain ⟨hne, hdash⟩ := hnone rfl
    exact ⟨plain_cons.mpr ⟨hne, rfl⟩, beq_eq_false_iff_ne.mpr fun he => hdash (List.cons.inj he).2⟩

theorem parts_word {name : S8} {value : Option S8} (h : (Part.option name value).Given)
    (hlacks : (Part.option name value).lacks = false) (args : List S8) :
    parts ((Part.option name value).word :: args) = .option name value :: parts args ∧
      dashdashlast ((Part.option name value).word :: args) = dashdashlast args := by
  obtain ⟨hplain, harg⟩ := word_isoption h
  rw [parts, dashdashlast, hplain, harg, optvalue_word h hlacks, optresult_word h]
  exact ⟨rfl, rfl⟩

theorem parts_words {l : List Part} (hgiven : ∀ part ∈ l, part.Given) (hlacks : ∀ part ∈ l, part.lacks = false)
    (args : List S8) :
    parts (l.map Part.word ++ args) = l ++ parts args ∧
      dashdashlast (l.map Part.word ++ args) = dashdashlast args := by
  induction l with
  | nil => exact ⟨rfl, rfl⟩
  | cons part l ih =>
    obtain ⟨hpart, hrest⟩ := List.forall_mem_cons.mp hgiven
    obtain ⟨hlack, hlackrest⟩ := List.forall_mem_cons.mp hlacks
    cases part with
    | positional arg => exact hpart.elim
    | option name value =>
      obtain ⟨hparts, hlast⟩ := parts_word hpart hlack (l.map Part.word ++ args)
      obtain ⟨ihparts, ihlast⟩ := ih hrest hlackrest
      exact ⟨hparts.trans (congrArg _ ihparts), hlast.trans ihlast⟩

theorem options_given (args : List S8) : ∀ part ∈ options args, part.Given := by
  induction args using parts.induct with
  | case1 =>
    rw [options, parts]
    exact List.forall_mem_nil _
  | case2 arg args hplain ih =>
    rw [options, parts, if_pos hplain, List.filter_cons_of_neg (by exact Bool.false_ne_true)]
    exact ih
  | case3 arg args hplain harg =>
    rw [options, parts, if_neg hplain, if_pos harg]
    intro part hpart
    obtain ⟨hmem, hopt⟩ := List.mem_filter.mp hpart
    obtain ⟨a, -, rfl⟩ := List.mem_map.mp hmem
    cases hopt
  | case4 arg args hplain harg ih =>
    rw [options, parts, if_neg hplain, if_neg harg, List.filter_cons_of_pos (by rfl)]
    refine List.forall_mem_cons.mpr ⟨?_, ih⟩
    obtain ⟨name, value, hgiven, rfl⟩ := option_word (Bool.eq_false_iff.mpr hplain) (Bool.eq_false_iff.mpr harg)
    rw [optresult_word hgiven]
    refine ⟨hgiven.1, fun hnone => ?_⟩
    cases value with
    | none => exact hgiven.2 rfl
    | some value =>
      -- an attached value is the option's
      unfold optvalue at hnone
      rw [show takesnext (Part.option name (some value)).word = false by
        rw [takesnext, optresult_word hgiven]; split <;> rfl, optresult_word hgiven] at hnone
      cases hnone

theorem parts_dashdash (args : List S8) :
    parts (S "--" :: args) = args.map .positional ∧ dashdashlast (S "--" :: args) = args.isEmpty := by
  have hplain : plain (S "--") = false := by decide
  rw [parts, dashdashlast, hplain]
  exact ⟨rfl, rfl⟩

theorem filter_positional (args : List S8) : (args.map Part.positional).filter Part.isoption = [] :=
  List.filter_eq_nil_iff.mpr fun part hpart hopt => by
    obtain ⟨arg, -, rfl⟩ := List.mem_map.mp hpart
    cases hopt

theorem filterMap_positional (args : List S8) : (args.map Part.positional).filterMap Part.positional? = args := by
  rw [List.filterMap_map]
  exact List.filterMap_some

theorem positional_of_options {l : List Part} (h : ∀ part ∈ l, part.isoption = true) :
    l.filterMap Part.positional? = [] :=
  List.filterMap_eq_nil_iff.mpr fun part hpart => by
    cases part with
    | positional arg => cases h _ hpart
    | option name value => rfl

/-- The normal form has the same parts, the options first. -/
theorem parts_normalform {args : List S8} (hlacks : ∀ part ∈ options args, part.lacks = false) :
    parts (normalform args) = options args ++ (positional args).map .positional ∧
      dashdashlast (normalform args) = false := by
  obtain ⟨hparts, hlast⟩ := parts_words (options_given args) hlacks
    (if positional args = [] then [] else S "--" :: positional args)
  rw [normalform, hparts, hlast]
  by_cases hnil : positional args = []
  · rw [if_pos hnil, hnil, parts, dashdashlast]
    exact ⟨rfl, rfl⟩
  · rw [if_neg hnil, (parts_dashdash _).1, (parts_dashdash _).2, List.isEmpty_eq_false_iff.mpr hnil]
    exact ⟨rfl, rfl⟩

/-- For all files and every command line whose options have the values they take, and
    whose `--`, if any, is not the last argument: the run is the one of its normal form. -/
theorem uconfig_normal (mapfile : S8 → Filemap) (conf : Config) (hlast : dashdashlast conf.args = false)
    (hlacks : ∀ part ∈ options conf.args, part.lacks = false) :
    uconfig mapfile { conf with args := normalform conf.args } = uconfig mapfile conf := by
  obtain ⟨hparts, hend⟩ := parts_normalform hlacks
  have hopt : ∀ part ∈ options conf.args, part.isoption = true := fun _ hp => (List.mem_filter.mp hp).2
  have hopts : options (normalform conf.args) = options conf.args := by
    rw [options, hparts, List.filter_append, filter_positional, List.append_nil]
    exact List.filter_eq_self.mpr hopt
  have hargs : positional (normalform conf.args) = positional conf.args := by
    rw [positional, hparts, List.filterMap_append, filterMap_positional, positional_of_options hopt, List.nil_append]
  rw [uconfig_finish mapfile conf, ← outcome_congr hargs hopts (hend.trans hlast.symm)]
  exact uconfig_finish mapfile { conf with args := normalform conf.args }

/-- Options and packages mixed, a value as an argument of its own, and a `--`. -/
def mixedargs : List S8 := [S "a", S "--define-variable", S "x=y", S "--libs", S "--", S "-b"]

theorem uconfig_normal_mixed :
    uconfig (fun _ => .notfound) (plainconf [S "--define-variable=x=y", S "--libs", S "--", S "a", S "-b"]) =
      uconfig (fun _ => .notfound) (plainconf mixedargs) := by
  have hform : normalform mixedargs = [S "--define-variable=x=y", S "--libs", S "--", S "a", S "-b"] := by
    decide +kernel
  have h := uconfig_normal (fun _ => .notfound) (plainconf mixedargs) (by decide +kernel) (by decide +kernel)
  exact (congrArg (fun args => uconfig (fun _ => .notfound) (plainconf args)) hform).symm.trans h

end GnuWindows.PkgConfig
