/-
  GnuWindows.PkgConfig.Turns — the turns of a whole run, over all arguments.

  `processruns` is every state of a run, in order, with the tokens of the arguments to
  come. What is still to be read asks for packages in a fixed order (`agenda`): the tokens
  of the top frame first, those of the later arguments last. So a run is a depth-first
  search: a turn reads no package token, or it visits the package of the first one.

  Proved:
  - `turned_visits`: the search that a run is.
  - `processruns_chain`, `processruns_ok`, `processruns_error`: the states and the result.
-/
import GnuWindows.Lib.Search
import GnuWindows.PkgConfig.Traversal

namespace GnuWindows.PkgConfig

open GnuWindows.Lib
open GnuWindows.Lib.BoundedStack
open GnuWindows.Lib.Search (State Turn Run visits mem_visits)

variable {mapfile : S8 → Filemap} {proc proc' : Processor}

/-! ## The states of a run -/

/-- A state, and the tokens of the arguments to come. -/
structure Moment where
  run : Procrun
  later : List S8

/-- All states in order; a run without a failure ends between arguments, with none left. -/
def processruns (mapfile : S8 → Filemap) (proc : Processor) : List S8 → List Moment
  | [] => [⟨⟨proc.frame [], [], proc.pkgs⟩, []⟩]
  | arg :: args =>
    ((procMachine mapfile proc).states ⟨proc.frame arg, [], proc.pkgs⟩).map (⟨·, args.flatMap tokens⟩) ++
      match process mapfile proc arg with
      | .ok proc' => processruns mapfile proc' args
      | .error _ => []

/-- A turn of the loop, or the next argument. -/
inductive Turned (mapfile : S8 → Filemap) (proc : Processor) : Moment → Moment → Prop
  | step {st st' : Procrun} {later : List S8} : procStep mapfile proc st = .go st' →
      Turned mapfile proc ⟨st, later⟩ ⟨st', later⟩
  | arg {st : Procrun} {e : Procend} {later : List S8} (arg : S8) : procStep mapfile proc st = .stop (.ok e) →
      Turned mapfile proc ⟨st, tokens arg ++ later⟩
        ⟨⟨⟨arg, e.last, 0, ⟨true, true⟩, e.op, e.pending⟩, [], e.pkgs⟩, later⟩

theorem processruns_head (mapfile : S8 → Filemap) (proc : Processor) (args : List S8) :
    ∃ arg later, (processruns mapfile proc args).head? = some ⟨⟨proc.frame arg, [], proc.pkgs⟩, later⟩ ∧
      args.flatMap tokens = tokens arg ++ later := by
  cases args with
  | nil => exact ⟨[], [], rfl, by rw [tokens_nil (s := []) rfl]; rfl⟩
  | cons arg args =>
    obtain ⟨l, hl⟩ := (procMachine mapfile proc).states_cons ⟨proc.frame arg, [], proc.pkgs⟩
    refine ⟨arg, args.flatMap tokens, ?_, by rw [List.flatMap_cons]⟩
    rw [processruns, hl]
    rfl

/-- The last state of an argument's loop, and its result. -/
theorem process_last (mapfile : S8 → Filemap) (proc : Processor) (arg : S8) :
    ∃ x, ((procMachine mapfile proc).states ⟨proc.frame arg, [], proc.pkgs⟩).getLast? = some x ∧
      ((∃ f, procStep mapfile proc x = .stop (.error f) ∧ process mapfile proc arg = .error f) ∨
        ∃ e, procStep mapfile proc x = .stop (.ok e) ∧ process mapfile proc arg =
          .ok { proc with last := e.last, op := e.op, pending := e.pending, pkgs := e.pkgs }) := by
  obtain ⟨x, hx, hstop⟩ := (procMachine mapfile proc).states_getLast ⟨proc.frame arg, [], proc.pkgs⟩
  refine ⟨x, hx, ?_⟩
  unfold process
  cases hr : (procMachine mapfile proc).run ⟨proc.frame arg, [], proc.pkgs⟩ with
  | error f => exact Or.inl ⟨f, hr ▸ hstop, rfl⟩
  | ok e => exact Or.inr ⟨e, hr ▸ hstop, rfl⟩

/-- What a processor keeps between arguments does not change its turns. -/
theorem Turned.config {e : Procend} {x y : Moment}
    (h : Turned mapfile { proc with last := e.last, op := e.op, pending := e.pending, pkgs := e.pkgs } x y) :
    Turned mapfile proc x y := by
  cases h with
  | step h => exact .step h
  | arg arg h => exact .arg arg h

/-- Each state is a turn after the one before it. -/
theorem processruns_chain (mapfile : S8 → Filemap) (proc : Processor) (args : List S8) :
    (processruns mapfile proc args).IsChain (Turned mapfile proc) := by
  induction args generalizing proc with
  | nil => exact List.isChain_singleton _
  | cons arg args ih =>
    have hstates : (((procMachine mapfile proc).states ⟨proc.frame arg, [], proc.pkgs⟩).map
        (Moment.mk · (args.flatMap tokens))).IsChain (Turned mapfile proc) := by
      rw [List.isChain_map]
      exact ((procMachine mapfile proc).states_isChain _).imp fun x y h => .step h
    obtain ⟨x, hx, ⟨f, _, hp⟩ | ⟨e, hstep, hp⟩⟩ := process_last mapfile proc arg
    · rw [processruns, hp]
      simpa using hstates
    · obtain ⟨arg', later, hhead, hlater⟩ := processruns_head mapfile
        { proc with last := e.last, op := e.op, pending := e.pending, pkgs := e.pkgs } args
      rw [processruns, hp, List.isChain_append]
      refine ⟨hstates, (ih { proc with last := e.last, op := e.op, pending := e.pending, pkgs := e.pkgs }).imp
        fun _ _ h => h.config, ?_⟩
      intro a ha b hb
      rw [List.getLast?_map, hx] at ha
      rw [hhead] at hb
      cases ha
      cases hb
      rw [hlater]
      exact .arg arg' hstep

theorem processargs_cons (mapfile : S8 → Filemap) (proc : Processor) (arg : S8) (args : List S8) :
    processargs mapfile proc (arg :: args) =
      match process mapfile proc arg with
      | .ok proc' => processargs mapfile proc' args
      | .error f => .error f := by
  rw [processargs, List.foldlM_cons]
  cases process mapfile proc arg <;> rfl

/-- A run without a failure ends with nothing left to read. -/
theorem processruns_ok {args : List S8} (h : processargs mapfile proc args = .ok proc') :
    (processruns mapfile proc args).getLast? = some ⟨⟨proc'.frame [], [], proc'.pkgs⟩, []⟩ := by
  induction args generalizing proc with
  | nil => cases h; rfl
  | cons arg args ih =>
    rw [processargs_cons] at h
    cases hp : process mapfile proc arg with
    | error f => rw [hp] at h; cases h
    | ok p =>
      rw [hp] at h
      rw [processruns, hp, List.getLast?_append, ih h]
      rfl

/-- A turn that fails ends the run. -/
theorem processruns_error {args : List S8} {m : Moment} (hm : m ∈ processruns mapfile proc args) {f : Fail}
    (hf : procStep mapfile proc m.run = .stop (.error f)) : processargs mapfile proc args = .error f := by
  induction args generalizing proc with
  | nil =>
    obtain rfl := List.mem_singleton.mp hm
    simp [procStep, Processor.frame, show (nexttoken []).1 = [] from rfl] at hf
  | cons arg args ih =>
    rw [processruns] at hm
    rw [processargs_cons]
    rcases List.mem_append.mp hm with hm | hm
    · obtain ⟨x, hx, rfl⟩ := List.mem_map.mp hm
      rw [process, (procMachine mapfile proc).run_of_stop hx hf]
    · cases hp : process mapfile proc arg with
      | error f => rw [hp] at hm; cases hm
      | ok p =>
        rw [hp] at hm
        apply ih hm
        have hc := process_config hp
        rw [hc]
        exact hf

/-! ## What is asked for -/

/-- The package tokens of a list of items. -/
def Item.token? : Item → Option S8
  | .pkg tok => some tok
  | _ => none

def packagetokens (l : List Item) : List S8 := l.filterMap Item.token?

theorem mem_packagetokens {l : List Item} {tok : S8} : tok ∈ packagetokens l ↔ Item.pkg tok ∈ l := by
  rw [packagetokens, List.mem_filterMap]
  constructor
  · intro h
    obtain ⟨item, hitem, he⟩ := h
    cases item with
    | pkg t => cases he; exact hitem
    | constraint => cases he
    | unexpected => cases he
    | dangling => cases he
  · intro h
    exact ⟨_, h, rfl⟩

/-- The package before an operator matters to the constraint only. -/
theorem packagetokens_last (n m : S8) (op : Versop) (toks : List S8) :
    packagetokens (items (some n) op toks) = packagetokens (items (some m) op toks) := by
  induction toks generalizing op with
  | nil => rfl
  | cons tok toks ih =>
    by_cases hop : op = .ERR
    · subst hop
      by_cases hparse : parseop tok = .ERR
      · rw [items_package hparse, items_package hparse]
      · rw [items_operator hparse, items_operator hparse]
        exact ih _
    · rw [items_version hop, items_version hop]
      rfl

/-- The package tokens of a frame; `later` are tokens to come for it. -/
def frametokens (s : Procstate) (later : List S8) : List S8 :=
  packagetokens (items (s.last.map fun _ => []) s.op (tokens s.arg ++ later))

/-- The names asked for, each with the length of the chain to it. -/
def agenda (later : List S8) : List Procstate → List (Nat × S8)
  | [] => []
  | s :: below =>
    visits (s.depth + 1) ((frametokens s (if below = [] then later else [])).map pathtorealname) ++ agenda later below

def Moment.agenda (m : Moment) : List (Nat × S8) := PkgConfig.agenda m.later (m.run.top :: m.run.below)

def Moment.names (m : Moment) : List S8 := m.run.pkgs.list.map Pkg.realname

theorem notMem_names {m : Moment} {n : S8} (h : ∀ p ∈ m.run.pkgs.list, p.realname ≠ n) : n ∉ m.names := by
  intro hn
  obtain ⟨p, hp, he⟩ := List.mem_map.mp hn
  exact h p hp he

/-- What was loaded and what is asked for. -/
def Moment.search (m : Moment) : State S8 := ⟨m.names, m.agenda⟩

/-- The names a package lists. -/
def Pkg.required (p : Pkg) : List S8 :=
  (packagetokens (requirements p.requires) ++ packagetokens (requirements p.requiresprivate)).map pathtorealname

/-- The names of packages of `l` that the package of a name lists. -/
def required (l : List Pkg) (n : S8) : List S8 :=
  (l.find? fun p => p.realname == n).elim [] fun p => p.required.filter (· ∈ l.map Pkg.realname)

/-- The depth below which frames are pushed. -/
def Processor.limit (proc : Processor) : Nat := if proc.recursive then proc.maxdepth else 0

theorem descends_iff (proc : Processor) (depth : Nat) :
    (proc.recursive && decide (depth < proc.maxdepth)) = true ↔ depth < proc.limit := by
  unfold Processor.limit
  cases proc.recursive <;> simp

theorem frametokens_start (field : Option S8) (depth : Nat) (flags : Flags) :
    frametokens (.start (bytes field) depth flags) [] = packagetokens (requirements field) := by
  simp [frametokens, Procstate.start, requirements]

/-- A package token comes before what its frame has left after it. -/
theorem frametokens_package {s : Procstate} (htok : (nexttoken s.arg).1 ≠ []) (hop : s.op = .ERR)
    (hparse : parseop (nexttoken s.arg).1 = .ERR) (i : Nat) (later : List S8) :
    frametokens s later = (nexttoken s.arg).1 :: frametokens (s.after (nexttoken s.arg).2 i) later := by
  simp only [frametokens, hop, Procstate.after, Option.map_some]
  rw [tokens_cons htok, List.cons_append, items_package hparse,
    packagetokens_last [] (pathtorealname (nexttoken s.arg).1)]
  rfl

/-- Other tokens ask for nothing. -/
theorem frametokens_version {s s' : Procstate} (htok : (nexttoken s.arg).1 ≠ []) (hop : s.op ≠ .ERR)
    (harg : s'.arg = (nexttoken s.arg).2) (hlast : s'.last = none) (herr : s'.op = .ERR) (later : List S8) :
    frametokens s later = frametokens s' later := by
  simp only [frametokens, harg, hlast, herr]
  rw [tokens_cons htok, List.cons_append, items_version hop]
  rfl

theorem frametokens_operator {s s' : Procstate} {i : Nat} (htok : (nexttoken s.arg).1 ≠ []) (hop : s.op = .ERR)
    (hparse : parseop (nexttoken s.arg).1 ≠ .ERR) (hi : s.last = some i) (harg : s'.arg = (nexttoken s.arg).2)
    (hlast : s'.last = some i) (hop' : s'.op = parseop (nexttoken s.arg).1) (later : List S8) :
    frametokens s later = frametokens s' later := by
  simp only [frametokens, harg, hlast, hop', hi, hop, Option.map_some]
  rw [tokens_cons htok, List.cons_append, items_operator hparse]

/-- The top frame has changed. -/
theorem agenda_top {s s' : Procstate} (hdepth : s'.depth = s.depth)
    (h : ∀ later, frametokens s later = frametokens s' later) (later : List S8) (below : List Procstate) :
    agenda later (s :: below) = agenda later (s' :: below) := by
  rw [agenda, agenda, hdepth, h]

/-- A list of requirements is read in a frame of its own. -/
theorem agenda_start (field : Option S8) (depth : Nat) (flags : Flags) (later : List S8) {below : List Procstate}
    (hne : below ≠ []) :
    agenda later (.start (bytes field) depth flags :: below) =
      visits (depth + 1) ((packagetokens (requirements field)).map pathtorealname) ++ agenda later below := by
  rw [agenda, if_neg hne, frametokens_start]
  rfl

/-- The package token a frame reads next. -/
def Procstate.package? (s : Procstate) : Option S8 :=
  if (nexttoken s.arg).1 = [] ∨ s.op ≠ .ERR ∨ parseop (nexttoken s.arg).1 ≠ .ERR then none
  else some (nexttoken s.arg).1

theorem package?_eq {s : Procstate} (htok : (nexttoken s.arg).1 ≠ []) (hop : s.op = .ERR)
    (hparse : parseop (nexttoken s.arg).1 = .ERR) : s.package? = some (nexttoken s.arg).1 := by
  simp [Procstate.package?, htok, hop, hparse]

theorem package?_some {s : Procstate} {tok : S8} (h : s.package? = some tok) :
    (nexttoken s.arg).1 = tok ∧ tok ≠ [] ∧ s.op = .ERR ∧ parseop tok = .ERR := by
  unfold Procstate.package? at h
  split at h
  · cases h
  · rename_i hn
    cases h
    simp only [not_or, Decidable.not_not] at hn
    exact ⟨rfl, hn⟩

/-! ## Moments -/

/-- What holds of every state of a run. -/
structure Coherent (m : Moment) : Prop where
  contents : ∀ p ∈ m.run.pkgs.list, p.contents.isSome = true
  distinct : m.names.Nodup
  stacked : Stacked (m.run.top :: m.run.below)
  height : m.run.below.length ≤ 255

/-- A package becomes public that was loaded as private. -/
def Promoted (flags : Flags) (p : Pkg) : Prop := flags.pkgPublic = true ∧ p.flags.pkgPublic = false

instance (flags : Flags) (p : Pkg) : Decidable (Promoted flags p) := inferInstanceAs (Decidable (_ ∧ _))

theorem promotes_iff (proc : Processor) (flags : Flags) (p : Pkg) (depth : Nat) :
    (flags.pkgPublic && !p.flags.pkgPublic && (proc.recursive && decide (depth < proc.maxdepth))) = true ↔
      Promoted flags p ∧ depth < proc.limit := by
  rw [Bool.and_eq_true, Bool.and_eq_true, Bool.not_eq_true', descends_iff, Promoted]

/-- The names that are read again when a loaded package is met. -/
def Procrun.again (proc : Processor) (st : Procrun) (p : Pkg) : List S8 :=
  if Promoted st.top.flags p ∧ st.top.depth + 1 < proc.limit then
    (packagetokens (requirements p.requires)).map pathtorealname
  else []

/-- A turn reads no package, or it meets a package that was loaded, or it loads one. -/
inductive Reading (mapfile : S8 → Filemap) (proc : Processor) (x y : Moment) : Prop
  | none : x.run.top.package? = none → y.run.pkgs = x.run.pkgs → y.agenda = x.agenda → Reading mapfile proc x y
  | met {tok : S8} {i : Nat} {p : Pkg} {rest : List (Nat × S8)} : x.run.top.package? = some tok →
      x.run.pkgs.list[i]? = some p → p.realname = pathtorealname tok →
      y.run.pkgs.list = x.run.pkgs.list.modify i (addflags x.run.top.flags) →
      x.agenda = (x.run.top.depth + 1, pathtorealname tok) :: rest →
      y.agenda = visits (x.run.top.depth + 2) (x.run.again proc p) ++ rest → Reading mapfile proc x y
  | load {tok : S8} {q : Pkg} {rest : List (Nat × S8)} : x.run.top.package? = some tok →
      (∀ p ∈ x.run.pkgs.list, p.realname ≠ pathtorealname tok) →
      proc.load mapfile (pathtorealname tok) tok = .ok q →
      y.run.pkgs.list = x.run.pkgs.list ++ [addflags x.run.top.flags q] →
      x.agenda = (x.run.top.depth + 1, pathtorealname tok) :: rest →
      y.agenda = (if x.run.top.depth + 1 < proc.limit then visits (x.run.top.depth + 2) q.required else []) ++ rest →
      Reading mapfile proc x y

/-- The names of a frame, once its package token is read. -/
theorem agenda_package {s : Procstate} (htok : (nexttoken s.arg).1 ≠ []) (hop : s.op = .ERR)
    (hparse : parseop (nexttoken s.arg).1 = .ERR) (i : Nat) (later : List S8) (below : List Procstate) :
    agenda later (s :: below) = (s.depth + 1, pathtorealname (nexttoken s.arg).1) ::
      agenda later (s.after (nexttoken s.arg).2 i :: below) := by
  rw [agenda, frametokens_package htok hop hparse i]
  rfl

theorem procpackage_reading {st st' : Procrun} {later : List S8} (hl : ∀ p ∈ st.pkgs.list, p.contents.isSome = true)
    (htok : (nexttoken st.top.arg).1 ≠ []) (hop : st.top.op = .ERR) (hparse : parseop (nexttoken st.top.arg).1 = .ERR)
    (h : procpackage mapfile proc st (nexttoken st.top.arg).1 (nexttoken st.top.arg).2 = .ok st') :
    Reading mapfile proc ⟨st, later⟩ ⟨st', later⟩ := by
  have hpackage := package?_eq htok hop hparse
  rcases procpackage_cases h hl with ⟨i, p, hp, hn, hlist, hframes⟩ | ⟨q, hnew, hq, hlist, hframes⟩
  · refine .met hpackage hp hn hlist (agenda_package htok hop hparse i later st.below) ?_
    simp only [Moment.agenda, Procrun.again]
    split at hframes
    · rename_i hpro
      rw [if_pos ((promotes_iff _ _ _ _).mp hpro), hframes.2.1, hframes.2.2,
        agenda_start _ _ _ _ (List.cons_ne_nil _ _)]
    · rename_i hpro
      rw [if_neg (mt (promotes_iff _ _ _ _).mpr hpro), hframes.1, hframes.2]
      rfl
  · refine .load hpackage hnew hq hlist (agenda_package htok hop hparse st.pkgs.list.length later st.below) ?_
    simp only [Moment.agenda]
    split at hframes
    · rename_i hdesc
      rw [if_pos ((descends_iff _ _).mp hdesc), hframes.2.1, hframes.2.2, agenda_start _ _ _ _ (List.cons_ne_nil _ _),
        agenda_start _ _ _ _ (List.cons_ne_nil _ _), ← List.append_assoc, Pkg.required, List.map_append]
      simp only [visits, List.map_append]
    · rename_i hdesc
      rw [if_neg (mt (descends_iff _ _).mpr hdesc), hframes.1, hframes.2]
      rfl

theorem package?_none {s : Procstate}
    (h : (nexttoken s.arg).1 = [] ∨ s.op ≠ .ERR ∨ parseop (nexttoken s.arg).1 ≠ .ERR) : s.package? = none := if_pos h

theorem Turned.reading {x y : Moment} (hx : Coherent x) (h : Turned mapfile proc x y) : Reading mapfile proc x y := by
  cases h with
  | @step st st' later h =>
    rcases procStep_cases h with ⟨htok, hop, hbelow, hpkgs⟩ | ⟨htok, hop, -, rfl⟩ | ⟨htok, hop, hparse, i, hi, rfl⟩ |
      ⟨htok, hop, hparse, hp⟩
    · refine .none (package?_none (Or.inl htok)) hpkgs ?_
      have hnil : frametokens st.top [] = [] := by
        cases hlast : st.top.last <;> simp [frametokens, hlast, hop, tokens_nil htok, items, packagetokens]
      show agenda later (st'.top :: st'.below) = agenda later (st.top :: st.below)
      rw [hbelow, agenda.eq_2 later st.top, if_neg (List.cons_ne_nil _ _), hnil]
      rfl
    · refine .none (package?_none (Or.inr (Or.inl hop))) rfl (Eq.symm ?_)
      refine agenda_top ?_ (frametokens_version htok hop ?_ ?_ ?_) later st.below <;> rfl
    · refine .none (package?_none (Or.inr (Or.inr hparse))) rfl (Eq.symm ?_)
      refine agenda_top ?_ (frametokens_operator htok hop hparse hi ?_ ?_ ?_) later st.below <;> rfl
    · exact procpackage_reading hx.contents htok hop hparse hp
  | @arg st e later arg h =>
    obtain ⟨htok, hbelow, rfl⟩ := procStep_ok h
    refine .none (package?_none (Or.inl htok)) rfl ?_
    have hdepth : st.top.depth = 0 := by
      have := hx.stacked.1
      simp only [hbelow] at this
      exact Nat.le_zero.mp this
    simp only [Moment.agenda, hbelow, agenda, if_true, hdepth, frametokens]
    rw [tokens_nil htok, List.nil_append]

/-! ## What a turn keeps -/

theorem Grows.refl (l : List Pkg) : Grows l l := fun _ p h => ⟨p, h, rfl, Flags.Le.refl _⟩

theorem Grows.trans {l l' l'' : List Pkg} (h : Grows l l') (h' : Grows l' l'') : Grows l l'' := by
  intro i p hp
  obtain ⟨q, hq, hpq⟩ := h i p hp
  obtain ⟨r, hr, hqr⟩ := h' i q hq
  refine ⟨r, hr, ?_, hpq.2.trans hqr.2⟩
  rw [hqr.1, hpq.1]

variable {x y : Moment}

theorem Reading.grows (h : Reading mapfile proc x y) : Grows x.run.pkgs.list y.run.pkgs.list := by
  cases h with
  | none _ hpkgs _ => rw [hpkgs]; exact .refl _
  | met _ _ _ hlist _ _ => rw [hlist]; exact grows_addflags _ _ _
  | load _ _ _ hlist _ _ => rw [hlist]; exact grows_append _ _

/-- The name a turn adds. -/
def Moment.added (m : Moment) : Option S8 :=
  match m.run.top.package? with
  | some tok => if pathtorealname tok ∈ m.names then none else some (pathtorealname tok)
  | none => none

theorem realname_load {realname tok : S8} {q : Pkg} (h : proc.load mapfile realname tok = .ok q) :
    q.realname = realname := ((loadpackage_rest _ _ _ _ _ _).of_ok h).1

theorem Reading.names (h : Reading mapfile proc x y) : y.names = x.names ++ x.added.toList := by
  cases h with
  | none htok hpkgs _ => simp [Moment.names, Moment.added, htok, hpkgs]
  | @met tok i p rest htok hp hn hlist _ _ =>
    have hmem : pathtorealname tok ∈ x.names := List.mem_map.mpr ⟨p, List.mem_of_getElem? hp, hn⟩
    simp only [Moment.added, htok, if_pos hmem]
    rw [Moment.names, hlist, map_realname_addflags]
    simp [Moment.names]
  | @load tok q rest htok hnew hq hlist _ _ =>
    have hmem := notMem_names hnew
    simp only [Moment.added, htok, if_neg hmem]
    rw [Moment.names, hlist, List.map_append]
    simp [Moment.names, addflags, realname_load hq]

theorem added_none {n : S8} (h : x.added = some n) : n ∉ x.names := by
  unfold Moment.added at h
  split at h
  · split at h
    · cases h
    · rename_i hn
      cases h
      exact hn
  · cases h

theorem procStep_stacked {st st' : Procrun} (hl : ∀ p ∈ st.pkgs.list, p.contents.isSome = true)
    (h : procStep mapfile proc st = .go st') (hs : Stacked (st.top :: st.below)) : Stacked (st'.top :: st'.below) := by
  rcases procStep_cases h with ⟨_, _, hbelow, _⟩ | ⟨_, _, _, rfl⟩ | ⟨_, _, _, i, _, rfl⟩ | ⟨_, _, _, hp⟩
  · exact hbelow ▸ hs.2.2
  · exact hs
  · exact hs
  · have hdepth := hs.1
    rcases procpackage_cases hp hl with ⟨i, p, _, _, _, hframes⟩ | ⟨q, _, _, _, hframes⟩
    · split at hframes
      · obtain ⟨_, htop, hbelow⟩ := hframes
        rw [htop, hbelow]
        exact ⟨Nat.succ_le_succ hdepth, by simp, hdepth, hs.2.1, hs.2.2⟩
      · rw [hframes.1, hframes.2]
        exact hs
    · split at hframes
      · obtain ⟨_, htop, hbelow⟩ := hframes
        rw [htop, hbelow]
        exact ⟨Nat.le_succ_of_le (Nat.succ_le_succ hdepth), by simp, Nat.succ_le_succ hdepth, by simp, hdepth,
          hs.2.1, hs.2.2⟩
      · rw [hframes.1, hframes.2]
        exact hs

theorem Turned.coherent (h : Turned mapfile proc x y) (hx : Coherent x) : Coherent y := by
  have hread := h.reading hx
  have hcontents : ∀ p ∈ y.run.pkgs.list, p.contents.isSome = true := by
    cases hread with
    | none _ hpkgs _ => rw [hpkgs]; exact hx.contents
    | met _ _ _ hlist _ _ =>
      intro q hq
      rw [hlist] at hq
      obtain ⟨j, hj⟩ := List.mem_iff_getElem?.mp hq
      obtain ⟨p, hp, hle⟩ := le_addflags hj
      rw [hle.1]
      exact hx.contents p (List.mem_of_getElem? hp)
    | load _ _ hload hlist _ _ =>
      intro q hq
      rw [hlist] at hq
      rcases List.mem_append.mp hq with hq | hq
      · exact hx.contents q hq
      · rw [List.mem_singleton.mp hq]
        exact ((loadpackage_rest _ _ _ _ _ _).of_ok hload).2.1
  have hdistinct : y.names.Nodup := by
    rw [hread.names]
    refine List.nodup_append.mpr ⟨hx.distinct, by cases x.added <;> simp, ?_⟩
    intro a ha b hb e
    rw [Option.mem_toList] at hb
    exact added_none hb (e ▸ ha)
  cases h with
  | @step st st' later h =>
    refine ⟨hcontents, hdistinct, procStep_stacked hx.contents h hx.stacked, ?_⟩
    have hlen := ((procMachine mapfile proc).moves h).length_le
    simp only [procMachine, framesizes, List.length_map, List.length_cons] at hlen
    have := hx.height
    simp only at this ⊢
    omega
  | arg arg h => exact ⟨hcontents, hdistinct, ⟨Nat.le_refl 0, fun _ => rfl, trivial⟩, by simp⟩

theorem coherent_fresh (hf : Fresh proc) (arg : S8) (later : List S8) :
    Coherent ⟨⟨proc.frame arg, [], proc.pkgs⟩, later⟩ := by
  have hl : proc.pkgs.list = [] := by rw [hf.pkgs]; rfl
  refine ⟨?_, ?_, ⟨Nat.le_refl 0, fun _ => rfl, trivial⟩, by simp⟩
  · simp [hl]
  · simp [Moment.names, hl]

/-- What a turn keeps holds in every state of a run. -/
theorem processruns_inv {I : Moment → Prop} (args : List S8)
    (hstart : ∀ arg later, I ⟨⟨proc.frame arg, [], proc.pkgs⟩, later⟩)
    (hturn : ∀ x y, Turned mapfile proc x y → I x → I y) : ∀ m ∈ processruns mapfile proc args, I m := by
  obtain ⟨arg, later, hhead, _⟩ := processruns_head mapfile proc args
  exact Trace.inv (processruns_chain mapfile proc args) hhead (hstart arg later) fun x _ y _ => hturn x y

theorem processruns_coherent (hf : Fresh proc) (args : List S8) : ∀ m ∈ processruns mapfile proc args, Coherent m :=
  processruns_inv args (coherent_fresh hf) fun _ _ h hx => h.coherent hx

/-- Every turn reads no package, meets one or loads one. -/
theorem processruns_reading (hf : Fresh proc) (args : List S8) :
    (processruns mapfile proc args).IsChain (Reading mapfile proc) :=
  (processruns_chain mapfile proc args).imp_of_mem_imp fun x _ hx _ h => h.reading (processruns_coherent hf args x hx)

/-! ## The search -/

theorem find?_name {l : List Pkg} (hl : (l.map Pkg.realname).Nodup) {p : Pkg} (hp : p ∈ l) :
    l.find? (fun q => q.realname == p.realname) = some p := by
  have hsome : (l.find? fun q => q.realname == p.realname).isSome = true := by
    rw [List.find?_isSome]
    exact ⟨p, hp, by simp⟩
  obtain ⟨q, hq⟩ := Option.isSome_iff_exists.mp hsome
  have hn := List.find?_some hq
  rw [beq_iff_eq] at hn
  rw [hq, List.inj_on_of_nodup_map hl (List.mem_of_find?_eq_some hq) hp hn]

/-- The packages of a table are, but for their flags, packages of a set with one package
    of each name. -/
structure Drawn (table l : List Pkg) : Prop where
  distinct : (l.map Pkg.realname).Nodup
  mem : ∀ p ∈ table, ∃ q ∈ l, p = { q with flags := p.flags }

theorem Drawn.grows {table table' l : List Pkg} (h : Drawn table' l) (hg : Grows table table') : Drawn table l := by
  refine ⟨h.distinct, fun p hp => ?_⟩
  obtain ⟨p', hp', hle⟩ := hg.mem hp
  obtain ⟨q, hq, he⟩ := h.mem p' hp'
  refine ⟨q, hq, ?_⟩
  rw [he] at hle
  have hflags := hle.1
  simp only [Pkg.mk.injEq] at hflags
  obtain ⟨h1, h2, h3, h4, _, h5⟩ := hflags
  rw [h1, h2, h3, h4, h5]

theorem Drawn.names {table l : List Pkg} (h : Drawn table l) {n : S8} (hn : n ∈ table.map Pkg.realname) :
    n ∈ l.map Pkg.realname := by
  obtain ⟨p, hp, rfl⟩ := List.mem_map.mp hn
  obtain ⟨q, hq, he⟩ := h.mem p hp
  exact List.mem_map.mpr ⟨q, hq, by rw [he]⟩

/-- A package lists what it lists in the set. -/
theorem Drawn.required {table l : List Pkg} (h : Drawn table l) {p : Pkg} (hp : p ∈ table) :
    required l p.realname = p.required.filter (· ∈ l.map Pkg.realname) := by
  obtain ⟨q, hq, he⟩ := h.mem p hp
  rw [he, PkgConfig.required]
  simp only
  rw [find?_name h.distinct hq]
  rfl

/-- A turn of a run is a turn of the search over the package set, when that has the
    packages asked for. -/
theorem turned_visits {l : List Pkg} (hx : Reading mapfile proc x y) (hl : Drawn y.run.pkgs.list l)
    (hasked : ∀ v ∈ y.agenda, v.2 ∈ l.map Pkg.realname) : Turn (required l) proc.limit x.search y.search := by
  have hlx := hl.grows hx.grows
  have hnames := hx.names
  cases hx with
  | none htok _ hagenda =>
    left
    simp only [Moment.added, htok, Option.toList_none, List.append_nil] at hnames
    simp only [Moment.search, hnames, hagenda]
  | @met tok i p rest htok hp hn hlist hagenda hagenda' =>
    right
    have hmem : pathtorealname tok ∈ x.names := List.mem_map.mpr ⟨p, List.mem_of_getElem? hp, hn⟩
    simp only [Moment.added, htok, if_pos hmem, Option.toList_none, List.append_nil] at hnames
    simp only [Moment.search, hnames, hagenda, hagenda']
    refine .again (x.run.again proc p) hmem fun m hm => ?_
    have hml : m ∈ l.map Pkg.realname := by
      apply hasked (x.run.top.depth + 2, m)
      rw [hagenda']
      exact List.mem_append_left _ (mem_visits.mpr ⟨rfl, hm⟩)
    unfold Procrun.again at hm
    split at hm
    · rename_i hpro
      refine ⟨?_, hpro.2⟩
      rw [← hn, hlx.required (List.mem_of_getElem? hp), List.mem_filter, decide_eq_true_eq, Pkg.required,
        List.map_append]
      exact ⟨List.mem_append_left _ hm, hml⟩
    · cases hm
  | @load tok q rest htok hnew hq hlist hagenda hagenda' =>
    right
    have hmem := notMem_names hnew
    have hreq : required l (pathtorealname tok) = q.required.filter (· ∈ l.map Pkg.realname) := by
      have hq' : addflags x.run.top.flags q ∈ y.run.pkgs.list := by rw [hlist]; simp
      have h := hl.required hq'
      rw [show (addflags x.run.top.flags q).realname = q.realname from rfl, realname_load hq] at h
      exact h
    -- what is pushed is a package of the set, like all that is asked for
    have hpush : (if x.run.top.depth + 1 < proc.limit then visits (x.run.top.depth + 2) q.required else []) =
        if x.run.top.depth + 1 < proc.limit then visits (x.run.top.depth + 2) (required l (pathtorealname tok))
        else [] := by
      split
      · rename_i hdesc
        rw [hreq, List.filter_eq_self.mpr]
        intro m hm
        rw [decide_eq_true_eq]
        apply hasked (x.run.top.depth + 2, m)
        rw [hagenda', if_pos hdesc]
        exact List.mem_append_left _ (mem_visits.mpr ⟨rfl, hm⟩)
      · rfl
    simp only [Moment.added, htok, if_neg hmem, Option.toList_some] at hnames
    simp only [Moment.search, hnames, hagenda, hagenda', hpush]
    exact .first hmem

/-- The table of a run without a failure is larger than that of each of its states. -/
theorem processruns_grows {args : List S8} (hf : Fresh proc) (h : processargs mapfile proc args = .ok proc') :
    ∀ m ∈ processruns mapfile proc args, Grows m.run.pkgs.list proc'.pkgs.list := by
  refine Trace.back (processruns_reading hf args) (processruns_ok h) (.refl _) ?_
  intro x _ y _ hread hy
  exact hread.grows.trans hy

/-- It ends with the names of the table, and nothing left to read. -/
theorem processruns_end {args : List S8} (h : processargs mapfile proc args = .ok proc') :
    ((processruns mapfile proc args).map Moment.search).getLast? = some ⟨proc'.pkgs.list.map Pkg.realname, []⟩ := by
  rw [List.getLast?_map, processruns_ok h, Option.map_some]
  congr 1
  simp only [Moment.search, Moment.names, Moment.agenda, agenda, Processor.frame, frametokens, if_true, List.append_nil]
  rw [tokens_nil (s := []) rfl]
  cases proc'.last <;> simp only [items] <;> split <;> rfl

/-- What is asked for in a run without a failure is loaded. -/
theorem processruns_asked {args : List S8} (hf : Fresh proc) (h : processargs mapfile proc args = .ok proc') :
    ∀ m ∈ processruns mapfile proc args, ∀ v ∈ m.agenda, v.2 ∈ proc'.pkgs.list.map Pkg.realname := by
  have hnames : ∀ m ∈ processruns mapfile proc args, ∀ n ∈ m.names, n ∈ proc'.pkgs.list.map Pkg.realname := by
    intro m hm n hn
    obtain ⟨p, hp, rfl⟩ := List.mem_map.mp hn
    obtain ⟨q, hq, hle⟩ := (processruns_grows hf h m hm).mem hp
    exact List.mem_map.mpr ⟨q, hq, hle.realname⟩
  refine Trace.back (processruns_reading hf args) (processruns_ok h) ?_ ?_
  · intro v hv
    have hnil := processruns_end h
    rw [List.getLast?_map, processruns_ok h, Option.map_some, Option.some.injEq, Moment.search, State.mk.injEq] at hnil
    rw [hnil.2] at hv
    cases hv
  · intro x hx y hymem hread hy v hv
    have hadded := hread.names
    cases hread with
    | none _ _ hagenda => exact hy v (hagenda ▸ hv)
    | @met tok i p rest _ hp hn _ hagenda hagenda' =>
      rw [hagenda] at hv
      rcases List.mem_cons.mp hv with rfl | hv
      · exact hnames x hx _ (List.mem_map.mpr ⟨p, List.mem_of_getElem? hp, hn⟩)
      · exact hy v (by rw [hagenda']; exact List.mem_append_right _ hv)
    | @load tok q rest htok hnew _ _ hagenda hagenda' =>
      rw [hagenda] at hv
      rcases List.mem_cons.mp hv with rfl | hv
      · apply hnames y hymem
        rw [hadded]
        by_cases hmem : pathtorealname tok ∈ x.names
        · exact List.mem_append_left _ hmem
        · simp [Moment.added, htok, hmem]
      · exact hy v (by rw [hagenda']; exact List.mem_append_right _ hv)

/-- The names of the arguments. -/
def rootnames (args : List S8) : List S8 := (packagetokens (argitems args)).map pathtorealname

/-- A run's own table is such a set. -/
theorem drawn_self {args : List S8} (hf : Fresh proc) (h : processargs mapfile proc args = .ok proc') :
    Drawn proc'.pkgs.list proc'.pkgs.list :=
  ⟨(processruns_coherent hf args _ (List.mem_of_getLast? (processruns_ok h))).distinct, fun p hp => ⟨p, hp, rfl⟩⟩

/-- A run without a failure is a search over any set its packages are from. -/
theorem processruns_search {args : List S8} (hf : Fresh proc) (h : processargs mapfile proc args = .ok proc')
    {l : List Pkg} (hl : Drawn proc'.pkgs.list l) :
    Run (required l) proc.limit (rootnames args) ((processruns mapfile proc args).map Moment.search) := by
  constructor
  · rw [List.isChain_map]
    exact (processruns_reading hf args).imp_of_mem_imp fun x y _ hy hread =>
      turned_visits hread (hl.grows (processruns_grows hf h y hy)) fun v hv =>
        hl.names (processruns_asked hf h y hy v hv)
  · obtain ⟨arg, later, hhead, hlater⟩ := processruns_head mapfile proc args
    rw [List.head?_map, hhead, Option.map_some]
    congr 1
    have hempty : proc.pkgs.list = [] := by rw [hf.pkgs]; rfl
    simp only [Moment.search, Moment.names, Moment.agenda, agenda, Processor.frame, frametokens, if_true, hf.last,
      hf.op, hempty, List.map_nil, Option.map_none, List.append_nil, Nat.zero_add, rootnames, argitems]
    rw [hlater]

/-- A frame is no deeper than it is high. -/
theorem agenda_depth {later : List S8} {frames : List Procstate} (hs : Stacked frames) :
    ∀ v ∈ agenda later frames, v.1 ≤ frames.length := by
  induction frames with
  | nil => intro v hv; cases hv
  | cons s below ih =>
    intro v hv
    rcases List.mem_append.mp hv with hv | hv
    · rw [(mem_visits.mp hv).1]
      exact Nat.succ_le_succ hs.1
    · exact Nat.le_succ_of_le (ih hs.2.2 v hv)

/-- So no chain that is followed is longer than 256 packages. -/
theorem processruns_depth {args : List S8} (hf : Fresh proc) {m : Moment} (hm : m ∈ processruns mapfile proc args) :
    ∀ v ∈ m.agenda, v.1 ≤ 256 := by
  intro v hv
  have hs := processruns_coherent hf args m hm
  have hdepth := agenda_depth hs.stacked v hv
  have hheight := hs.height
  rw [List.length_cons] at hdepth
  omega

/-- The package is listed. -/
def Pkg.Lists (p q : Pkg) : Prop :=
  Names (requirements p.requires) q.realname ∨ Names (requirements p.requiresprivate) q.realname

theorem mem_pkgrequired {p : Pkg} {n : S8} :
    n ∈ p.required ↔ Names (requirements p.requires) n ∨ Names (requirements p.requiresprivate) n := by
  simp only [Pkg.required, List.mem_map, List.mem_append, mem_packagetokens, Names, or_and_right, exists_or]

/-- The edges of the search are the lists of the packages. -/
theorem mem_required {l : List Pkg} (hl : (l.map Pkg.realname).Nodup) {p q : Pkg} (hp : p ∈ l) (hq : q ∈ l) :
    q.realname ∈ required l p.realname ↔ p.Lists q := by
  rw [required, find?_name hl hp, Option.elim_some, List.mem_filter, decide_eq_true_eq, mem_pkgrequired]
  exact and_iff_left (List.mem_map_of_mem hq)

theorem required_names {l : List Pkg} {n m : S8} (h : m ∈ required l n) : m ∈ l.map Pkg.realname := by
  unfold required at h
  cases hfind : l.find? (fun p => p.realname == n) with
  | none => rw [hfind] at h; cases h
  | some p =>
    rw [hfind, Option.elim_some, List.mem_filter, decide_eq_true_eq] at h
    exact h.2

theorem mem_rootnames {args : List S8} {n : S8} : n ∈ rootnames args ↔ Names (argitems args) n := by
  simp only [rootnames, List.mem_map, mem_packagetokens, Names]

end GnuWindows.PkgConfig
