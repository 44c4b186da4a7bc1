/-
  GnuWindows.PkgConfig.Locality — which files a run depends on.

  A token is looked up at some paths, in order, up to the first where there is a file
  (`consulted`). Tokens are looked up that the arguments have, or the lists of what such a
  token loads (`Wanted`).

  Proved: `uconfig_local`, a run is the same with any other files that agree on the paths
  at which its tokens are looked up.
-/
import GnuWindows.PkgConfig.Diagnostics
import GnuWindows.PkgConfig.Frames

namespace GnuWindows.PkgConfig

open GnuWindows.Lib.BoundedStack

/-! ## Looking up a token -/

/-- Up to the first element with `p`, with that. -/
def upto {α : Type} (p : α → Bool) : List α → List α
  | [] => []
  | a :: l => a :: if p a then [] else upto p l

def Filemap.present : Filemap → Bool
  | .notfound => false
  | _ => true

/-- The paths at which a token is looked up. -/
def consulted (mapfile : S8 → Filemap) (dirs : Search) (tok : S8) : List S8 :=
  if tok = S "pkg-config" then []
  else
    upto (fun path => (mapfile path).present)
      ((if realnameispath tok then [tok ++ [0]] else []) ++ dirs.list.map fun dir => buildpath dir tok)

section

variable {mapfile mapfile' : S8 → Filemap} {err : Errbuf} {tok : S8}

theorem readpackage_congr {path : S8} (h : tok = S "pkg-config" ∨ mapfile' path = mapfile path) :
    readpackage mapfile' err path tok = readpackage mapfile err path tok := by
  unfold readpackage
  rcases h with rfl | h
  · rfl
  · rw [h]

/-- A file that is not there is not read, one that is ends the search. -/
theorem readpackage_present {path : S8} (htok : tok ≠ S "pkg-config") :
    readpackage mapfile err path tok = .ok none ↔ (mapfile path).present = false := by
  rw [readpackage, if_neg (by simpa using htok)]
  cases mapfile path <;> simp [Filemap.present]

theorem searchdirs_congr (htok : tok ≠ S "pkg-config") (dirs : List S8) (path : S8)
    (h : ∀ p ∈ upto (fun path => (mapfile path).present) (dirs.map fun dir => buildpath dir tok),
      mapfile' p = mapfile p) :
    searchdirs mapfile' err tok dirs path = searchdirs mapfile err tok dirs path := by
  induction dirs generalizing path with
  | nil => rfl
  | cons dir dirs ih =>
    obtain ⟨hdir, hdirs⟩ := List.forall_mem_cons.mp h
    rw [searchdirs, searchdirs, readpackage_congr (Or.inr hdir)]
    cases hread : readpackage mapfile err (buildpath dir tok) tok with
    | error f => rfl
    | ok contents =>
      cases contents with
      | some contents => rfl
      | none =>
        rw [if_neg (by simp [(readpackage_present htok).mp hread])] at hdirs
        exact ih _ hdirs

theorem openpackage_congr (dirs : Search) (h : ∀ p ∈ consulted mapfile dirs tok, mapfile' p = mapfile p) :
    openpackage mapfile' err dirs tok = openpackage mapfile err dirs tok := by
  by_cases htok : tok = S "pkg-config"
  · have hread (path : S8) : readpackage mapfile' err path tok = readpackage mapfile err path tok :=
      readpackage_congr (Or.inl htok)
    have hsearch (path : S8) (l : List S8) :
        searchdirs mapfile' err tok l path = searchdirs mapfile err tok l path := by
      cases l with
      | nil => rfl
      | cons dir l =>
        obtain ⟨contents, hsome⟩ : ∃ contents, readpackage mapfile err (buildpath dir tok) tok = .ok (some contents) :=
          ⟨_, by rw [readpackage, if_pos (by simpa using htok)]⟩
        rw [searchdirs, searchdirs, hread, hsome]
    unfold openpackage
    rw [hread, hsearch]
  · rw [consulted, if_neg htok] at h
    unfold openpackage
    cases hpath : realnameispath tok with
    | false =>
      rw [hpath] at h
      rw [searchdirs_congr htok dirs.list [] h]
      rfl
    | true =>
      rw [hpath] at h
      obtain ⟨hfirst, hrest⟩ := List.forall_mem_cons.mp h
      rw [readpackage_congr (Or.inr hfirst)]
      cases hread : readpackage mapfile err (tok ++ [0]) tok with
      | error f => rfl
      | ok contents =>
        cases contents with
        | some contents => rfl
        | none =>
          rw [if_neg (by simp [(readpackage_present htok).mp hread])] at hrest
          rw [searchdirs_congr htok dirs.list [] hrest]

end

theorem loadpackage_congr {mapfile mapfile' : S8 → Filemap} (err : Errbuf) (global : Env) {dirs : Search}
    (define : Bool) (base : Pkg) {tok : S8} (h : ∀ p ∈ consulted mapfile dirs tok, mapfile' p = mapfile p) :
    loadpackage mapfile' err global dirs define base tok = loadpackage mapfile err global dirs define base tok := by
  unfold loadpackage findpackage
  rw [openpackage_congr dirs h]

/-! ## The tokens that are looked up -/

/-- The arguments have the token, or a list of what such a token loads. -/
inductive Wanted (load : S8 → S8 → Except Fail Pkg) (roots : List Item) : S8 → Prop
  | root {tok : S8} : Item.pkg tok ∈ roots → Wanted load roots tok
  | listed {tok tok' : S8} {q : Pkg} : Wanted load roots tok → load (pathtorealname tok) tok = .ok q →
      Item.pkg tok' ∈ requirements q.requires ∨ Item.pkg tok' ∈ requirements q.requiresprivate →
      Wanted load roots tok'

variable {load : S8 → S8 → Except Fail Pkg} {roots : List Item}

/-- A package item is of such a token. -/
def Wants (load : S8 → S8 → Except Fail Pkg) (roots : List Item) (item : Item) : Prop :=
  ∀ tok, item = .pkg tok → Wanted load roots tok

theorem wants_kept (load : S8 → S8 → Except Fail Pkg) (roots : List Item) :
    Kept load fun _ => Wants load roots where
  grows _ h := h
  loads _ _ hwanted hload hitem := fun tok' he => by
    subst he
    exact .listed (hwanted _ rfl) hload hitem

variable {mapfile mapfile' : S8 → Filemap} {proc : Processor} {later : List S8}

/-- The files agree wherever a token is looked up. -/
def Agree (mapfile mapfile' : S8 → Filemap) (proc : Processor) (roots : List Item) : Prop :=
  ∀ tok, Wanted (proc.load mapfile) roots tok → ∀ path ∈ consulted mapfile proc.search tok, mapfile' path = mapfile path

theorem procpackage_congr {st : Procrun} {tok : S8} (tail : S8)
    (h : ∀ path ∈ consulted mapfile proc.search tok, mapfile' path = mapfile path) :
    procpackage mapfile' proc st tok tail = procpackage mapfile proc st tok tail := by
  simp only [procpackage, loadpackage_congr proc.err proc.global proc.define_prefix _ h]

/-- A turn reads no other file. -/
theorem procStep_congr (h : Agree mapfile mapfile' proc roots) {st : Procrun}
    (hr : Reads (fun _ => Wants (proc.load mapfile) roots) later st.pkgs.list (st.top :: st.below)) :
    procStep mapfile' proc st = procStep mapfile proc st := by
  by_cases htok : (nexttoken st.top.arg).1 = []
  · simp only [procStep, if_pos htok]
  · by_cases hop : st.top.op = .ERR
    · by_cases hparse : parseop (nexttoken st.top.arg).1 = .ERR
      · have hwanted : Wanted (proc.load mapfile) roots (nexttoken st.top.arg).1 := by
          refine hr.items.1 _ ?_ _ rfl
          unfold frameitems
          rw [hop, tokens_cons htok, List.cons_append, items_package hparse]
          exact List.mem_cons_self
        simp only [procStep, procpackage_congr (nexttoken st.top.arg).2 (h _ hwanted)]
      · simp only [procStep, if_neg htok, hop, hparse, ne_eq, not_true_eq_false, dite_false, not_false_eq_true, if_true]
    · simp only [procStep, if_neg htok, dif_pos hop]

theorem process_congr (h : Agree mapfile mapfile' proc roots) {arg : S8}
    (hr : Reads (fun _ => Wants (proc.load mapfile) roots) (tokens arg ++ later) proc.pkgs.list [proc.frame []]) :
    process mapfile' proc arg = process mapfile proc arg := by
  have hrun : (procMachine mapfile' proc).run ⟨proc.frame arg, [], proc.pkgs⟩ =
      (procMachine mapfile proc).run ⟨proc.frame arg, [], proc.pkgs⟩ := by
    refine (procMachine mapfile proc).run_image (procMachine mapfile' proc)
      (I := fun st => Reads (fun _ => Wants (proc.load mapfile) roots) later st.pkgs.list (st.top :: st.below)) id id
      (fun st st' hst hstep => procStep_reads (wants_kept _ _) hst hstep) (fun st hst => ?_) _ hr.start
    refine (procStep_congr h hst).trans ?_
    show procStep mapfile proc st = (procStep mapfile proc st).map id id
    cases procStep mapfile proc st <;> rfl
  unfold process
  rw [hrun]

theorem processargs_congr {args : List S8} (h : Agree mapfile mapfile' proc roots)
    (hr : Reads (fun _ => Wants (proc.load mapfile) roots) (args.flatMap tokens) proc.pkgs.list [proc.frame []]) :
    processargs mapfile' proc args = processargs mapfile proc args := by
  induction args generalizing proc with
  | nil => rfl
  | cons arg args ih =>
    rw [List.flatMap_cons] at hr
    rw [processargs, processargs, List.foldlM_cons, List.foldlM_cons, process_congr h hr]
    cases hp : process mapfile proc arg with
    | error f => rfl
    | ok proc' =>
      have hconfig := process_config hp
      have hload : proc'.load mapfile = proc.load mapfile := by rw [hconfig]; rfl
      have hsearch : proc'.search = proc.search := by rw [hconfig]
      refine ih ?_ ?_
      · unfold Agree
        rw [hload, hsearch]
        exact h
      · rw [hload]
        exact process_reads (wants_kept _ _) hr hp

/-! ## A run -/

/-- Nothing is read and no operator waits. -/
def Idle (st st' : Optstate) : Prop := st'.proc.last = st.proc.last ∧ st'.proc.op = st.proc.op

theorem withpath_idle {value : S8} {st st' : Optstate} (h : withpath value st = .ok st') : Idle st st' := by
  unfold withpath at h
  split at h <;> cases h
  exact ⟨rfl, rfl⟩

theorem definevariable_idle {value : S8} {st st' : Optstate} (h : definevariable value st = .ok st') : Idle st st' := by
  simp only [definevariable] at h
  split at h <;> cases h
  exact ⟨rfl, rfl⟩

theorem optiontable_idle : ∀ e ∈ optiontable, e.2.Does fun _ st st' => Idle st st' := by
  simp only [optiontable, List.forall_mem_cons, Optaction.Does]
  refine ⟨trivial, trivial, trivial, ?_⟩
  iterate 5 refine ⟨fun _ _ => ⟨rfl, rfl⟩, ?_⟩
  refine ⟨fun _ _ _ h => by cases h; exact ⟨rfl, rfl⟩, ?_⟩
  iterate 6 refine ⟨fun _ _ => ⟨rfl, rfl⟩, ?_⟩
  refine ⟨fun _ _ _ => withpath_idle, fun _ _ _ h => by cases h; exact ⟨rfl, rfl⟩, fun _ _ => ⟨rfl, rfl⟩,
    fun _ _ _ => definevariable_idle, ?_⟩
  iterate 2 refine ⟨fun _ _ => ⟨rfl, rfl⟩, ?_⟩
  refine ⟨fun _ _ _ h => (by cases h), ?_⟩
  iterate 3 refine ⟨fun _ _ _ h => by cases h; exact ⟨rfl, rfl⟩, ?_⟩
  iterate 8 refine ⟨fun _ _ => ⟨rfl, rfl⟩, ?_⟩
  exact List.forall_mem_nil _

/-- What every option does, one that takes effect has done. -/
theorem applypart_does {E : Option S8 → Optstate → Optstate → Prop} (hE : ∀ e ∈ optiontable, e.2.Does E) {name : S8}
    {value : Option S8} {st st' : Optstate} (h : applypart st (.option name value) = .ok st') : E value st st' := by
  simp only [applypart] at h
  cases hl : optiontable.lookup name with
  | none => rw [hl] at h; cases h
  | some action =>
    obtain ⟨l₁, l₂, htable, -⟩ := List.lookup_eq_some_iff.mp hl
    have he := hE (name, action) (by rw [htable]; simp)
    rw [hl] at h
    cases action with
    | exit text => cases h
    | flag f => cases h; exact he value st
    | value f =>
      cases value with
      | none => cases h
      | some value => exact he value st st' h

theorem applyparts_idle {l : List Part} {st st' : Optstate} (h : applyparts l st = .ok st') : Idle st st' := by
  induction l generalizing st with
  | nil => cases h; exact ⟨rfl, rfl⟩
  | cons part l ih =>
    rw [applyparts_cons] at h
    cases hp : applypart st part with
    | error e => rw [hp] at h; cases h
    | ok st₁ =>
      rw [hp] at h
      have hone : Idle st st₁ := by
        cases part with
        | positional arg => cases hp; exact ⟨rfl, rfl⟩
        | option name value => exact applypart_does optiontable_idle hp
      exact ⟨(ih h).1.trans hone.1, (ih h).2.trans hone.2⟩

theorem Parsed.fresh {conf : Config} {st : Optstate} (h : Parsed conf st) : Fresh st.proc := by
  have hrun := (optionloop_run (newoptstate conf) (Options.Inorder.start conf.args) rfl).1
  have hidle := applyparts_idle (outcome_ok (hrun.symm.trans h))
  exact ⟨h.applied.pkgs, hidle.1, hidle.2⟩

/-- For every configuration and all files: with any other files that agree with these where
    the tokens are looked up that the arguments and the packages these lead to have, each up
    to the first path where there is a file, the run is the same. -/
theorem uconfig_local (mapfile mapfile' : S8 → Filemap) (conf : Config)
    (h : ∀ st, Parsed conf st → ∀ tok, Wanted (st.proc.load mapfile) (argitems st.args) tok →
      ∀ path ∈ consulted mapfile st.proc.search tok, mapfile' path = mapfile path) :
    uconfig mapfile' conf = uconfig mapfile conf := by
  unfold uconfig
  cases hout : (optionloop (newoptions conf.args) (newoptstate conf)).2 with
  | error e => cases e <;> rfl
  | ok st =>
    have hparsed : Parsed conf st := hout
    have hread : Reads (fun _ => Wants (st.proc.load mapfile) (argitems st.args)) (st.args.flatMap tokens)
        st.proc.pkgs.list [st.proc.frame []] :=
      .fresh hparsed.fresh fun item hitem tok he => .root (he ▸ hitem)
    have hprocess : processargs mapfile' st.proc st.args = processargs mapfile st.proc st.args :=
      processargs_congr (h st hparsed) hread
    have hafter : afteroptions mapfile' conf st = afteroptions mapfile conf st := by
      rw [afteroptions, afteroptions, hprocess]
    simp only [hafter]

/-- What `x` is looked up at and gives, as far as `uconfig_local_beside` needs it. -/
def looksup (st : Optstate) : Bool :=
  st.args == [S "x"] && consulted quotefiles st.proc.search (S "x") == [S "/lib/pkgconfig/x.pc\x00"] &&
    (st.proc.load quotefiles (pathtorealname (S "x")) (S "x")).toOption.all fun q =>
      requirements q.requires == [] && requirements q.requiresprivate == []

theorem wanted_looksup {st : Optstate} (h : looksup st = true) {tok : S8}
    (hwanted : Wanted (st.proc.load quotefiles) (argitems st.args) tok) : tok = S "x" := by
  simp only [looksup, Bool.and_eq_true, beq_iff_eq] at h
  obtain ⟨⟨hargs, -⟩, hload⟩ := h
  have hitems : argitems [S "x"] = [.pkg (S "x")] := by decide +kernel
  rw [hargs, hitems] at hwanted
  induction hwanted with
  | root hroot => exact Item.pkg.inj (List.mem_singleton.mp hroot)
  | listed _ hq hitem ih =>
    subst ih
    rw [hq] at hload
    simp only [Except.toOption, Option.all_some, Bool.and_eq_true, beq_iff_eq] at hload
    rw [hload.1, hload.2] at hitem
    rcases hitem with hitem | hitem <;> cases hitem

/-- Another file beside one that is asked for, which cannot even be read. -/
theorem uconfig_local_beside :
    uconfig (fun path => if path = S "/lib/pkgconfig/y.pc\x00" then .readerr else quotefiles path)
        (plainconf [S "--modversion", S "x"]) =
      uconfig quotefiles (plainconf [S "--modversion", S "x"]) := by
  refine uconfig_local quotefiles _ (plainconf [S "--modversion", S "x"]) fun st hst tok hwanted path hpath => ?_
  have hall : (optionloop (newoptions (plainconf [S "--modversion", S "x"]).args)
      (newoptstate (plainconf [S "--modversion", S "x"]))).2.toOption.all looksup = true := by decide +kernel
  have hlooksup : looksup st = true := by
    rw [show (optionloop _ _).2 = _ from hst] at hall
    exact hall
  rw [wanted_looksup hlooksup hwanted] at hpath
  simp only [looksup, Bool.and_eq_true, beq_iff_eq] at hlooksup
  rw [hlooksup.1.2, List.mem_singleton] at hpath
  rw [hpath]
  exact if_neg (by decide)

end GnuWindows.PkgConfig
