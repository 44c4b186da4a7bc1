/-
  GnuWindows.PkgConfig.OptionsProofs — what the option loop makes of an argument vector.

  `parts` reads the arguments as the positional ones and the options with their values.
  The loop applies the parts one after another; it goes wrong only at a `--` that has
  nothing after it, and in `--with-path` (see `Search`).

  Proved: a run of the loop from any position (`optionloop_run`); what a silenced or
  redirected command line is (`optionloop_silent`, `optionloop_tostdout`); when the loop
  keeps to its arguments (`optionloop_sound_iff`).
-/
import GnuWindows.PkgConfig.Options

namespace GnuWindows.PkgConfig

/-! ## The parts of a command line -/

inductive Part where
  | positional (arg : S8)
  | option (name : S8) (value : Option S8)

def Part.positional? : Part → Option S8
  | .positional arg => some arg
  | .option _ _ => none

def Part.option? : Part → Option S8
  | .positional _ => none
  | .option name _ => some name

def Part.value? : Part → Option S8
  | .positional _ => none
  | .option _ value => value

/-- Not an option: shorter than 2, or not starting with `-`. -/
def plain (arg : S8) : Bool := arg.length < 2 || arg.head? != some 0x2d

/-- An option whose value is the next argument. -/
def takesnext (arg : S8) : Bool :=
  match optiontable.lookup (optresult arg).arg with
  | some (.value _) => (optresult arg).value.isNone
  | _ => false

/-- The value of an option that `args` follows, and the arguments after it. -/
def optvalue (arg : S8) (args : List S8) : Option S8 × List S8 :=
  if takesnext arg then (args.head?, args.tail) else ((optresult arg).value, args)

theorem optvalue_lt (arg : S8) (args : List S8) : (optvalue arg args).2.length < (arg :: args).length := by
  unfold optvalue
  split <;> simp only [List.length_tail, List.length_cons] <;> omega

def parts : List S8 → List Part
  | [] => []
  | arg :: args =>
    if plain arg then .positional arg :: parts args
    else if arg == S "--" then args.map .positional
    else .option (optresult arg).arg (optvalue arg args).1 :: parts (optvalue arg args).2
termination_by args => args.length
decreasing_by
  · exact Nat.lt_succ_self _
  · exact optvalue_lt arg args

/-- The positional arguments. -/
def positional (args : List S8) : List S8 := (parts args).filterMap Part.positional?

/-- Is an option of this name given? -/
def given (name : S8) (args : List S8) : Bool := ((parts args).filterMap Part.option?).contains name

/-- The `--` that ends the options is there, and nothing comes after it. -/
def dashdashlast : List S8 → Bool
  | [] => false
  | arg :: args =>
    if plain arg then dashdashlast args
    else if arg == S "--" then args.isEmpty
    else dashdashlast (optvalue arg args).2
termination_by args => args.length
decreasing_by
  · exact Nat.lt_succ_self _
  · exact optvalue_lt arg args

/-- What one part does. -/
def applypart (st : Optstate) : Part → Except Halt Optstate
  | .positional arg => .ok { st with args := st.args ++ [arg] }
  | .option name value =>
    match optiontable.lookup name with
    | none => .error (.fail (failunknown .stderr name))
    | some (.exit text) => .error (.exit text)
    | some (.flag f) => .ok (f st)
    | some (.value f) =>
      match value with
      | some value => f value st
      | none => .error (.fail (failargument .stderr name))

def applyparts (l : List Part) (st : Optstate) : Except Halt Optstate := l.foldlM applypart st

theorem applyparts_cons (part : Part) (l : List Part) (st : Optstate) :
    applyparts (part :: l) st =
      match applypart st part with
      | .error e => .error e
      | .ok st' => applyparts l st' := by
  rw [applyparts, List.foldlM_cons]
  cases applypart st part <;> rfl

theorem applyparts_positional (args : List S8) (st : Optstate) :
    applyparts (args.map .positional) st = .ok { st with args := st.args ++ args } := by
  induction args generalizing st with
  | nil => rw [List.append_nil]; rfl
  | cons arg args ih =>
    simp only [List.map_cons, applyparts_cons, applypart, ih, List.append_assoc, List.singleton_append]

/-! ## One turn -/

namespace Options

/-- Every argument before the index was read, once and in order. -/
structure Inorder (p : Options) : Prop where
  index : p.index ≤ p.args.length
  reads : p.reads = List.range p.index

theorem Inorder.start (args : List S8) : (newoptions args).Inorder := ⟨Nat.zero_le _, rfl⟩

theorem Inorder.advance {p : Options} (h : p.Inorder) {arg : S8} {args : List S8} (hp : p.rest = arg :: args) :
    p.advance.Inorder := by
  have hlt : p.index < p.args.length := by
    have := congrArg List.length hp
    simp only [rest, List.length_drop, List.length_cons] at this
    omega
  exact ⟨hlt, by simp [Options.advance, h.reads, List.range_succ]⟩

theorem Inorder.eof {p : Options} (h : p.Inorder) (hp : p.rest = []) : p.index = p.args.length := by
  have := congrArg List.length hp
  simp only [rest, List.length_drop, List.length_nil] at this
  have := h.index
  omega

end Options

variable {p : Options} {st : Optstate} {arg : S8} {args : List S8}

theorem optionturn_nil (h : p.Inorder) (hp : p.rest = []) : optionturn p st = (p, .ok none) := by
  rw [optionturn, nextoption, if_pos (h.eof hp)]
  rfl

theorem optionturn_delivers (st : Optstate) (hp : p.rest = arg :: args) (hplain : (p.dashdash || plain arg) = true) :
    optionturn p st = (p.advance, .ok (some { st with args := st.args ++ [arg] })) := by
  rw [optionturn, nextoption_cons hp, nextloop_cons hp, if_pos (by simpa [plain, or_assoc] using hplain)]
  rfl

/-- At a `--` the next turn starts again, with the flag set. -/
theorem nextoption_dashdash (hp : p.rest = S "--" :: args) (hd : p.dashdash = false) :
    nextoption p =
      match p.advance.rest with
      | [] => ({ p.advance with dashdash := true }.advance, .error .outofbounds)
      | next :: _ => ({ p.advance with dashdash := true }.advance, .ok ⟨next, none, false, true⟩) := by
  have hplain : ¬ (p.dashdash || (S "--").length < 2 || (S "--").head? != some 0x2d) = true := by rw [hd]; decide
  rw [nextoption_cons hp, nextloop_cons hp, if_neg hplain, if_pos (by decide), nextloop_dashdash rfl]
  rfl

/-- An option that has its value, or takes none, reads nothing. -/
theorem takeoption_own (h : takesnext arg = false) :
    takeoption p st (optresult arg) = (p, applypart st (.option (optresult arg).arg (optresult arg).value)) := by
  unfold takesnext at h
  unfold takeoption applypart
  cases hl : optiontable.lookup (optresult arg).arg with
  | none => simp only [hl]
  | some action =>
    cases action with
    | exit text => simp only [hl]
    | flag f => simp only [hl]
    | value f =>
      rw [hl] at h
      obtain ⟨value, hv⟩ := Option.isSome_iff_exists.mp (Option.isNone_eq_false_iff.mp h)
      simp only [hl, hv]

/-- An option without its value reads the next argument, and fails at the end. -/
theorem takeoption_next (st : Optstate) (h : takesnext arg = true) (hp : p.Inorder) :
    ∃ q, q.Inorder ∧ q.args = p.args ∧ q.dashdash = p.dashdash ∧ q.rest = p.rest.tail ∧
      takeoption p st (optresult arg) = (q, applypart st (.option (optresult arg).arg p.rest.head?)) := by
  unfold takesnext at h
  unfold takeoption applypart
  split at h
  · rename_i f hl
    rw [Option.isNone_iff_eq_none] at h
    cases hrest : p.rest with
    | nil =>
      have hg : getargopt .stderr p (optresult arg).arg =
          (p, .error (.fail (failargument .stderr (optresult arg).arg))) := by
        rw [getargopt, if_pos (hp.eof hrest)]
      exact ⟨p, hp, rfl, rfl, hrest, by simp only [hl, h, hg, List.head?_nil]⟩
    | cons next args =>
      have hg := getargopt_cons .stderr (optresult arg).arg hrest
      exact ⟨p.advance, hp.advance hrest, rfl, rfl, Options.advance_rest hrest,
        by simp only [hl, h, hg, List.head?_cons]⟩
  · cases h

/-- An option is read, with its value. -/
theorem optionturn_option (st : Optstate) (h : p.Inorder) (hp : p.rest = arg :: args) (hd : p.dashdash = false)
    (hplain : plain arg = false) (harg : (arg == S "--") = false) :
    ∃ q, q.Inorder ∧ q.args = p.args ∧ q.dashdash = false ∧ q.rest = (optvalue arg args).2 ∧
      optionturn p st = (q, (applypart st (.option (optresult arg).arg (optvalue arg args).1)).map some) := by
  have hadv := h.advance hp
  have hrest := Options.advance_rest hp
  have hturn : optionturn p st =
      ((takeoption p.advance st (optresult arg)).1, (takeoption p.advance st (optresult arg)).2.map some) := by
    rw [optionturn, nextoption_cons hp, nextloop_cons hp, if_neg (by simpa [plain, hd] using hplain),
      if_neg (by simp [harg])]
    have hopt : (optresult arg).ok = true ∧ (optresult arg).isoption = true := by
      unfold optresult; simp only; split <;> exact ⟨rfl, rfl⟩
    simp only [hopt.1, hopt.2, Bool.not_true, Bool.false_eq_true, if_false]
  rw [hturn, optvalue]
  cases ht : takesnext arg with
  | false => exact ⟨p.advance, hadv, rfl, hd, hrest, by rw [takeoption_own ht]; rfl⟩
  | true =>
    obtain ⟨q, hq, hargs, hqd, hqrest, htake⟩ := takeoption_next st ht hadv
    rw [hrest] at hqrest htake
    exact ⟨q, hq, hargs, hqd.trans hd, hqrest, by rw [htake]; rfl⟩

/-! ## A run -/

theorem optionloop_stop (h : p.Inorder) (hp : p.rest = []) : optionloop p st = (p, .ok st) := by
  rw [optionloop]
  split <;> rename_i ht <;> rw [optionturn_nil h hp] at ht <;> cases ht
  rfl

theorem optionloop_error {q : Options} {e : Halt} (h : optionturn p st = (q, .error e)) :
    optionloop p st = (q, .error e) := by
  rw [optionloop]
  split <;> rename_i ht <;> rw [h] at ht <;> cases ht
  rfl

theorem optionloop_go {q : Options} {st' : Optstate} (h : optionturn p st = (q, .ok (some st'))) :
    optionloop p st = optionloop q st' := by
  rw [optionloop]
  split <;> rename_i ht <;> rw [h] at ht <;> cases ht
  rfl

/-- After `--` everything is delivered. -/
theorem optionloop_dashdash (st : Optstate) (h : p.Inorder) (hd : p.dashdash = true) :
    ∃ q, q.Inorder ∧ q.args = p.args ∧ q.rest = [] ∧
      optionloop p st = (q, .ok { st with args := st.args ++ p.rest }) := by
  generalize hp : p.rest = args
  induction args generalizing p st with
  | nil => exact ⟨p, h, rfl, hp, by rw [optionloop_stop h hp, List.append_nil]⟩
  | cons arg args ih =>
    have hgo := optionloop_go (optionturn_delivers st hp (by simp [hd]))
    obtain ⟨q, hq, hargs, hend, hrun⟩ := ih _ (h.advance hp) hd (Options.advance_rest hp)
    exact ⟨q, hq, hargs, hend, by rw [hgo, hrun, List.append_assoc]; rfl⟩

/-- What the loop makes of the arguments not read yet. -/
def outcome (args : List S8) (st : Optstate) : Except Halt Optstate :=
  match applyparts (parts args) st with
  | .error e => .error e
  | .ok st => if dashdashlast args then .error .outofbounds else .ok st

theorem outcome_plain (hplain : plain arg = true) :
    outcome (arg :: args) st = outcome args { st with args := st.args ++ [arg] } := by
  simp only [outcome, parts, dashdashlast, hplain, if_true, applyparts_cons, applypart]

theorem outcome_dashdash :
    outcome (S "--" :: args) st =
      if args.isEmpty then .error .outofbounds else .ok { st with args := st.args ++ args } := by
  have hplain : plain (S "--") = false := by decide
  simp only [outcome, parts, dashdashlast, hplain, Bool.false_eq_true, if_false, beq_self_eq_true, if_true,
    applyparts_positional]

theorem outcome_option (hplain : plain arg = false) (harg : (arg == S "--") = false) :
    outcome (arg :: args) st =
      match applypart st (.option (optresult arg).arg (optvalue arg args).1) with
      | .error e => .error e
      | .ok st' => outcome (optvalue arg args).2 st' := by
  simp only [outcome, parts, dashdashlast, hplain, harg, Bool.false_eq_true, if_false, applyparts_cons]
  cases applypart st (.option (optresult arg).arg (optvalue arg args).1) <;> rfl

theorem optionloop_run (st : Optstate) (h : p.Inorder) (hd : p.dashdash = false) :
    (optionloop p st).2 = outcome p.rest st ∧
      ((optionloop p st).1.Inorder ∧ (optionloop p st).1.args = p.args ∨ (optionloop p st).2 = .error .outofbounds) ∧
      (∀ st', (optionloop p st).2 = .ok st' → (optionloop p st).1.rest = []) := by
  generalize hp : p.rest = args
  induction args using parts.induct generalizing p st with
  | case1 =>
    rw [optionloop_stop h hp]
    refine ⟨?_, Or.inl ⟨h, rfl⟩, fun _ _ => hp⟩
    simp only [outcome, parts, dashdashlast, applyparts, List.foldlM_nil]
    rfl
  | case2 arg args hplain ih =>
    rw [optionloop_go (optionturn_delivers _ hp (by simp [hplain])), outcome_plain hplain]
    exact ih _ (h.advance hp) hd (Options.advance_rest hp)
  | case3 arg args hplain harg =>
    obtain rfl : arg = S "--" := by simpa using harg
    have hnext := nextoption_dashdash hp hd
    rw [Options.advance_rest hp] at hnext
    rw [outcome_dashdash]
    cases args with
    | nil =>
      rw [optionloop_error (by rw [optionturn, hnext])]
      exact ⟨rfl, Or.inr rfl, fun _ he => by cases he⟩
    | cons next args =>
      have hadv : Options.Inorder { p.advance with dashdash := true } := ⟨(h.advance hp).index, (h.advance hp).reads⟩
      have hrest : Options.rest { p.advance with dashdash := true } = next :: args := Options.advance_rest hp
      obtain ⟨q, hq, hargs, hend, hrun⟩ :=
        optionloop_dashdash { st with args := st.args ++ [next] } (hadv.advance hrest) rfl
      rw [optionloop_go (by rw [optionturn, hnext]; rfl), hrun, Options.advance_rest hrest, List.append_assoc]
      exact ⟨rfl, Or.inl ⟨hq, hargs⟩, fun _ _ => hend⟩
  | case4 arg args hplain harg ih =>
    have hplain := Bool.eq_false_iff.mpr hplain
    have harg := Bool.eq_false_iff.mpr harg
    obtain ⟨q, hq, hargs, hqd, hrest, hturn⟩ := optionturn_option st h hp hd hplain harg
    rw [outcome_option hplain harg]
    cases happly : applypart st (.option (optresult arg).arg (optvalue arg args).1) with
    | error e =>
      rw [happly] at hturn
      rw [optionloop_error hturn]
      exact ⟨rfl, Or.inl ⟨hq, hargs⟩, fun _ he => by cases he⟩
    | ok st' =>
      rw [happly] at hturn
      rw [optionloop_go hturn, ← hargs]
      exact ih _ hq hqd hrest

/-! ## What the options do to the locals -/

/-- The options that disable the messages. -/
def silencers : List S8 :=
  [S "-exists", S "-atleast-version", S "-exact-version", S "-max-version", S "-silence-errors", S "-validate"]

/-- What an option does to some of the locals. -/
structure Effect (name : S8) (value : Option S8) (st st' : Optstate) : Prop where
  args : st'.args = st.args
  silent : st'.silent = (st.silent || silencers.contains name)
  tostdout : st'.err_to_stdout = (st.err_to_stdout || name == S "-errors-to-stdout")
  err : st'.proc.err = st.proc.err
  pkgs : st'.proc.pkgs = st.proc.pkgs
  global : st'.proc.global = st.proc.global ∨ ∃ v, value = some v ∧
    st'.proc.global = st.proc.global.bind (s8cut v 0x3d).head (some (s8cut v 0x3d).tail)
  search : st'.proc.search = st.proc.search ∨ ∃ v, value = some v ∧
    prependpath st.proc.search v = some st'.proc.search
  argdelim : st'.argdelim = st.argdelim ∨ st'.argdelim = 0x0a
  override : (st.override_op ≠ .ERR → st.silent = true) → st'.override_op ≠ .ERR → st'.silent = true

def Optaction.Does (E : Option S8 → Optstate → Optstate → Prop) : Optaction → Prop
  | .flag f => ∀ value st, E value st (f st)
  | .value f => ∀ value st st', f value st = .ok st' → E (some value) st st'
  | .exit _ => True

theorem Effect.other {name : S8} {value : Option S8} {st st' : Optstate} (args : st'.args = st.args)
    (silent : st'.silent = st.silent) (tostdout : st'.err_to_stdout = st.err_to_stdout)
    (proc : st'.proc.err = st.proc.err ∧ st'.proc.pkgs = st.proc.pkgs ∧ st'.proc.global = st.proc.global ∧
      st'.proc.search = st.proc.search)
    (argdelim : st'.argdelim = st.argdelim ∨ st'.argdelim = 0x0a) (override : st'.override_op = st.override_op)
    (h : silencers.contains name = false ∧ (name == S "-errors-to-stdout") = false) : Effect name value st st' where
  args := args
  silent := by rw [silent, h.1, Bool.or_false]
  tostdout := by rw [tostdout, h.2, Bool.or_false]
  err := proc.1
  pkgs := proc.2.1
  global := Or.inl proc.2.2.1
  search := Or.inl proc.2.2.2
  argdelim := argdelim
  override h h' := by rw [silent]; exact h (override ▸ h')

theorem Effect.silencer {name : S8} {value : Option S8} {st st' : Optstate} (args : st'.args = st.args)
    (silent : st'.silent = true) (tostdout : st'.err_to_stdout = st.err_to_stdout)
    (proc : st'.proc.err = st.proc.err ∧ st'.proc.pkgs = st.proc.pkgs ∧ st'.proc.global = st.proc.global ∧
      st'.proc.search = st.proc.search)
    (argdelim : st'.argdelim = st.argdelim)
    (h : silencers.contains name = true ∧ (name == S "-errors-to-stdout") = false) : Effect name value st st' where
  args := args
  silent := by rw [silent, h.1, Bool.or_true]
  tostdout := by rw [tostdout, h.2, Bool.or_false]
  err := proc.1
  pkgs := proc.2.1
  global := Or.inl proc.2.2.1
  search := Or.inl proc.2.2.2
  argdelim := Or.inl argdelim
  override _ _ := silent

theorem withpath_effect {value : S8} {st st' : Optstate} (h : withpath value st = .ok st') :
    Effect (S "-with-path") (some value) st st' := by
  unfold withpath at h
  split at h
  · rename_i search hs
    cases h
    have hname : silencers.contains (S "-with-path") = false ∧ (S "-with-path" == S "-errors-to-stdout") = false := by
      decide
    exact ⟨rfl, by rw [hname.1, Bool.or_false], by rw [hname.2, Bool.or_false], rfl, rfl, Or.inl rfl,
      Or.inr ⟨value, rfl, hs⟩, Or.inl rfl, id⟩
  · cases h

theorem definevariable_effect {value : S8} {st st' : Optstate} (h : definevariable value st = .ok st') :
    Effect (S "-define-variable") (some value) st st' := by
  simp only [definevariable] at h
  split at h <;> cases h
  have hname : silencers.contains (S "-define-variable") = false ∧
      (S "-define-variable" == S "-errors-to-stdout") = false := by decide
  exact ⟨rfl, by rw [hname.1, Bool.or_false], by rw [hname.2, Bool.or_false], rfl, rfl, Or.inr ⟨value, rfl, rfl⟩,
    Or.inl rfl, Or.inl rfl, id⟩

theorem overrideversion_effect {name value : S8} {op : Versop} {st st' : Optstate}
    (hname : silencers.contains name = true ∧ (name == S "-errors-to-stdout") = false)
    (h : overrideversion op value st = .ok st') : Effect name (some value) st st' := by
  cases h
  exact .silencer rfl rfl rfl ⟨rfl, rfl, rfl, rfl⟩ rfl hname

theorem optiontable_effect : ∀ e ∈ optiontable, e.2.Does (Effect e.1) := by
  simp only [optiontable, List.forall_mem_cons, Optaction.Does]
  refine ⟨trivial, trivial, trivial, ?_⟩
  iterate 5 refine ⟨fun _ st => .other rfl rfl rfl ⟨rfl, rfl, rfl, rfl⟩ (Or.inl rfl) rfl (by decide), ?_⟩
  refine ⟨fun value st st' h => ?_, ?_⟩
  · cases h; exact .other rfl rfl rfl ⟨rfl, rfl, rfl, rfl⟩ (Or.inl rfl) rfl (by decide)
  iterate 6 refine ⟨fun _ st => .other rfl rfl rfl ⟨rfl, rfl, rfl, rfl⟩ (Or.inl rfl) rfl (by decide), ?_⟩
  refine ⟨fun value st st' h => withpath_effect h, ?_⟩
  refine ⟨fun value st st' h => ?_, ?_⟩
  · cases h; exact .other rfl rfl rfl ⟨rfl, rfl, rfl, rfl⟩ (Or.inl rfl) rfl (by decide)
  refine ⟨fun _ st => .other rfl rfl rfl ⟨rfl, rfl, rfl, rfl⟩ (Or.inl rfl) rfl (by decide), ?_⟩
  refine ⟨fun value st st' h => definevariable_effect h, ?_⟩
  refine ⟨fun _ st => .other rfl rfl rfl ⟨rfl, rfl, rfl, rfl⟩ (Or.inr rfl) rfl (by decide), ?_⟩
  refine ⟨fun _ st => .silencer rfl rfl rfl ⟨rfl, rfl, rfl, rfl⟩ rfl (by decide), ?_⟩
  refine ⟨fun value st st' h => (by cases h), ?_⟩
  iterate 3 refine ⟨fun value st st' h => overrideversion_effect (by decide) h, ?_⟩
  refine ⟨fun _ st => .silencer rfl rfl rfl ⟨rfl, rfl, rfl, rfl⟩ rfl (by decide), ?_⟩
  refine ⟨fun _ st => ⟨rfl, ?_, ?_, rfl, rfl, Or.inl rfl, Or.inl rfl, Or.inl rfl, id⟩, ?_⟩
  · rw [show silencers.contains (S "-errors-to-stdout") = false by decide, Bool.or_false]
  · rw [beq_self_eq_true, Bool.or_true]
  iterate 5 refine ⟨fun _ st => .other rfl rfl rfl ⟨rfl, rfl, rfl, rfl⟩ (Or.inl rfl) rfl (by decide), ?_⟩
  exact ⟨fun _ st => .silencer rfl rfl rfl ⟨rfl, rfl, rfl, rfl⟩ rfl (by decide), fun _ h => by cases h⟩

theorem applypart_effect {name : S8} {value : Option S8} {st st' : Optstate}
    (h : applypart st (.option name value) = .ok st') : Effect name value st st' := by
  simp only [applypart] at h
  cases hl : optiontable.lookup name with
  | none => rw [hl] at h; cases h
  | some action =>
    obtain ⟨l₁, l₂, htable, -⟩ := List.lookup_eq_some_iff.mp hl
    have he := optiontable_effect (name, action) (by rw [htable]; simp)
    rw [hl] at h
    cases action with
    | exit text => cases h
    | flag f => cases h; exact he value st
    | value f =>
      cases value with
      | none => cases h
      | some value => exact he value st st' h

/-- What a list of parts leaves behind. -/
structure Applied (l : List Part) (st st' : Optstate) : Prop where
  args : st'.args = st.args ++ l.filterMap Part.positional?
  silent : st'.silent = (st.silent || silencers.any (l.filterMap Part.option?).contains)
  tostdout : st'.err_to_stdout = (st.err_to_stdout || (l.filterMap Part.option?).contains (S "-errors-to-stdout"))
  err : st'.proc.err = st.proc.err
  pkgs : st'.proc.pkgs = st.proc.pkgs
  global : ∀ {K : S8 → Prop}, st.proc.global.All K →
    (∀ value ∈ l.filterMap Part.value?, K (s8cut value 0x3d).tail) → st'.proc.global.All K
  search : ∀ dir ∈ st'.proc.search.list, dir ∈ st.proc.search.list ∨
    ∃ value ∈ l.filterMap Part.value?, dir ∈ splitpath value st.proc.search.delim
  delim : st'.proc.search.delim = st.proc.search.delim
  argdelim : st'.argdelim = st.argdelim ∨ st'.argdelim = 0x0a
  override : (st.override_op ≠ .ERR → st.silent = true) → st'.override_op ≠ .ERR → st'.silent = true

theorem any_contains_cons (names : List S8) (name : S8) (l : List S8) :
    names.any (name :: l).contains = (names.contains name || names.any l.contains) := by
  rw [Bool.eq_iff_iff]
  simp only [List.any_eq_true, List.contains_iff_mem, List.mem_cons, Bool.or_eq_true]
  constructor
  · intro hany
    rcases hany with ⟨s, hs, rfl | hm⟩
    · exact Or.inl hs
    · exact Or.inr ⟨s, hs, hm⟩
  · intro hany
    rcases hany with hs | ⟨s, hs, hm⟩
    · exact ⟨name, hs, Or.inl rfl⟩
    · exact ⟨s, hs, Or.inr hm⟩

theorem mem_values (name : S8) (value : Option S8) {l : List Part} {v : S8} (h : v ∈ l.filterMap Part.value?) :
    v ∈ (Part.option name value :: l).filterMap Part.value? := by
  cases value with
  | none => exact h
  | some value => exact List.mem_cons_of_mem _ h

theorem prependpath_list {dirs dirs' : Search} {path : S8} (h : prependpath dirs path = some dirs') :
    dirs'.delim = dirs.delim ∧ ∀ dir ∈ dirs'.list, dir ∈ dirs.list ∨ dir ∈ splitpath path dirs.delim := by
  unfold prependpath at h
  split at h
  · cases h
    exact ⟨rfl, fun dir hdir => List.mem_append.mp hdir⟩
  · simp only at h
    split at h
    · cases h
    · cases h
      exact ⟨rfl, fun dir hdir => (List.mem_append.mp hdir).symm⟩

theorem Effect.delim {name : S8} {value : Option S8} {st st' : Optstate} (h : Effect name value st st') :
    st'.proc.search.delim = st.proc.search.delim := by
  rcases h.search with he | ⟨v, -, he⟩
  · rw [he]
  · exact (prependpath_list he).1

theorem Applied.positional {arg : S8} {l : List Part} {st st' : Optstate}
    (h : Applied l { st with args := st.args ++ [arg] } st') : Applied (.positional arg :: l) st st' where
  args := by rw [h.args]; simp [Part.positional?]
  silent := h.silent
  tostdout := h.tostdout
  err := h.err
  pkgs := h.pkgs
  global := h.global
  search := h.search
  delim := h.delim
  argdelim := h.argdelim
  override := h.override

theorem Applied.option {name : S8} {value : Option S8} {l : List Part} {st st₁ st' : Optstate}
    (hn : Effect name value st st₁) (h : Applied l st₁ st') : Applied (.option name value :: l) st st' where
  args := h.args.trans (by rw [hn.args]; rfl)
  silent := by
    rw [h.silent, hn.silent,
      show (Part.option name value :: l).filterMap Part.option? = name :: l.filterMap Part.option? from rfl,
      any_contains_cons, Bool.or_assoc]
  tostdout := by
    rw [h.tostdout, hn.tostdout,
      show (Part.option name value :: l).filterMap Part.option? = name :: l.filterMap Part.option? from rfl,
      List.contains_cons, Bool.or_assoc, Bool.beq_comm]
  err := h.err.trans hn.err
  pkgs := h.pkgs.trans hn.pkgs
  global hg hv := by
    refine h.global ?_ fun v hm => hv v ?_
    · rcases hn.global with he | ⟨v, rfl, he⟩
      · rw [he]; exact hg
      · rw [he]; exact hg.bind _ (hv v (by simp [Part.value?]))
    · exact mem_values name value hm
  search := by
    intro dir hdir
    rcases h.search dir hdir with hd | ⟨v, hv, hd⟩
    · rcases hn.search with he | ⟨v, rfl, he⟩
      · exact Or.inl (he ▸ hd)
      · rcases (prependpath_list he).2 dir hd with hd | hd
        · exact Or.inl hd
        · exact Or.inr ⟨v, List.mem_cons_self, hd⟩
    · rw [hn.delim] at hd
      exact Or.inr ⟨v, mem_values name value hv, hd⟩
  delim := h.delim.trans hn.delim
  argdelim := by
    rcases h.argdelim with he | he
    · rcases hn.argdelim with he' | he'
      · exact Or.inl (he.trans he')
      · exact Or.inr (he.trans he')
    · exact Or.inr he
  override ho := h.override (hn.override ho)

theorem applyparts_applied {l : List Part} {st st' : Optstate} (h : applyparts l st = .ok st') : Applied l st st' := by
  induction l generalizing st with
  | nil =>
    cases h
    exact ⟨(List.append_nil _).symm, by simp, by simp, rfl, rfl, fun hg _ => hg, fun _ hd => Or.inl hd, rfl,
      Or.inl rfl, id⟩
  | cons part l ih =>
    rw [applyparts_cons] at h
    cases hp : applypart st part with
    | error e => rw [hp] at h; cases h
    | ok st₁ =>
      rw [hp] at h
      have hl := ih h
      cases part with
      | positional arg => cases hp; exact hl.positional
      | option name value => exact hl.option (applypart_effect hp)

/-! ## The whole loop -/

/-- The options of a command line parse without an error. -/
def Parsed (conf : Config) (st : Optstate) : Prop := (optionloop (newoptions conf.args) (newoptstate conf)).2 = .ok st

theorem outcome_ok {args : List S8} {st st' : Optstate} (h : outcome args st = .ok st') :
    applyparts (parts args) st = .ok st' := by
  unfold outcome at h
  split at h
  · cases h
  · rename_i st₁ h₁
    split at h
    · cases h
    · cases h; exact h₁

theorem Parsed.applied {conf : Config} {st : Optstate} (h : Parsed conf st) :
    Applied (parts conf.args) (newoptstate conf) st := by
  have hrun := (optionloop_run (newoptstate conf) (Options.Inorder.start conf.args) rfl).1
  exact applyparts_applied (outcome_ok (hrun.symm.trans h))

/-- The messages are disabled when one of the six options is given. -/
theorem optionloop_silent {conf : Config} {st : Optstate} (h : Parsed conf st) :
    st.silent = silencers.any fun name => given name conf.args := by
  rw [h.applied.silent]
  rfl

theorem optionloop_tostdout {conf : Config} {st : Optstate} (h : Parsed conf st) :
    st.err_to_stdout = given (S "-errors-to-stdout") conf.args := by
  rw [h.applied.tostdout]
  rfl

/-- The loop was left without a meaning in C. -/
def Halt.undefined : Halt → Bool
  | .outofbounds | .nullpointer => true
  | _ => false

/-- The loop keeps to the arguments: it reads only those there are, each once and in
    order, it comes to an end, and when no option ends the run it has read them all and
    has the positional ones. -/
structure Sound (args : List S8) (r : Options × Except Halt Optstate) : Prop where
  bounds : ∀ i ∈ r.1.reads, i < args.length
  index : r.1.index ≤ args.length
  reads : r.1.reads = List.range r.1.index
  ends : ∀ e, r.2 = .error e → e.undefined = false
  delivers : ∀ st, r.2 = .ok st → r.1.index = args.length ∧ st.args = positional args

/-- The options take effect up to a `--` in the last position, or up to a write through a
    null pointer. -/
def loopfault (conf : Config) : Bool :=
  match applyparts (parts conf.args) (newoptstate conf) with
  | .error e => e.undefined
  | .ok _ => dashdashlast conf.args

theorem outcome_undefined {conf : Config} :
    (∃ e, outcome conf.args (newoptstate conf) = .error e ∧ e.undefined = true) ↔ loopfault conf = true := by
  unfold outcome loopfault
  cases applyparts (parts conf.args) (newoptstate conf) with
  | error e => simp
  | ok st => cases dashdashlast conf.args <;> simp [Halt.undefined]

theorem optionloop_sound_iff (conf : Config) :
    Sound conf.args (optionloop (newoptions conf.args) (newoptstate conf)) ↔ loopfault conf = false := by
  obtain ⟨hout, hin, hend⟩ := optionloop_run (newoptstate conf) (Options.Inorder.start conf.args) rfl
  rw [show (newoptions conf.args).rest = conf.args from rfl] at hout
  rw [← Bool.not_eq_true, ← outcome_undefined, ← hout]
  constructor
  · intro hs hfault
    obtain ⟨e, he, hu⟩ := hfault
    rw [hs.ends e he] at hu
    cases hu
  · intro hdef
    have hin : Options.Inorder _ ∧ _ := hin.resolve_right fun h => hdef ⟨.outofbounds, h, rfl⟩
    have hargs : (optionloop (newoptions conf.args) (newoptstate conf)).1.args = conf.args := hin.2
    have hindex := Nat.le_trans hin.1.index (Nat.le_of_eq (congrArg List.length hargs))
    refine ⟨?_, hindex, hin.1.reads, ?_, fun st hok => ⟨?_, ?_⟩⟩
    · intro i hi
      rw [hin.1.reads, List.mem_range] at hi
      exact Nat.lt_of_lt_of_le hi hindex
    · intro e he
      exact Bool.eq_false_iff.mpr fun hu => hdef ⟨e, he, hu⟩
    · rw [hin.1.eof (hend st hok), hargs]
    · rw [(Parsed.applied hok).args]
      rfl

/-- A configuration with the given arguments and one directory to search. -/
def plainconf (args : List S8) : Config :=
  ⟨args, [], S "/lib/pkgconfig", none, S "/include", S "/lib", none, none, false, 0x3a⟩

/-- With `--` alone, `nextoption` reads one argument past the last. -/
theorem dashdash_last_overread :
    ¬ ∀ conf : Config, Sound conf.args (optionloop (newoptions conf.args) (newoptstate conf)) := by
  intro h
  have := (h (plainconf [S "--"])).bounds 1 (by decide +kernel)
  simp [plainconf] at this

end GnuWindows.PkgConfig
