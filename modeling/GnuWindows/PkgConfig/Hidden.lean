/-
  GnuWindows.PkgConfig.Hidden — what `--define-variable` hides.

  `lookup` asks the global environment first. What a file binds to a name that the command
  line defines, or that is built in, is never read: packages that differ in such bindings
  only (`Veiled`) are the same to a run.

  Proved:
  - `parsepackage_visible`: files that differ in hidden settings give such packages.
  - `procStep_veiled`, `process_veiled`: the processor does the same with both.
  - `uconfig_hides`: with other files that differ from these in hidden settings only, a run
    is the same.
-/
import GnuWindows.Lib.Relate
import GnuWindows.PkgConfig.Diagnostics
import GnuWindows.PkgConfig.FilterArgs
import GnuWindows.PkgConfig.ProcessProofs
import GnuWindows.PkgConfig.Render

namespace GnuWindows.PkgConfig

open GnuWindows.Lib.BoundedStack
open GnuWindows.Lib.Hoare (Comp Matches forM_related foldlM_related)

/-- The bindings that `global` does not hide are the same. -/
def Env.Hides (global env env' : Env) : Prop := ∀ name, global.find name = none → env'.find name = env.find name

theorem Env.Hides.bind {global env env' : Env} (h : Env.Hides global env env') (name : S8) (value : Option S8) :
    Env.Hides global (env.bind name value) (env'.bind name value) := by
  intro name' hname
  rw [Env.find_bind, Env.find_bind, h name' hname]

/-- The packages differ in hidden bindings only. -/
structure Veiled (global : Env) (p p' : Pkg) : Prop where
  path : p'.path = p.path
  realname : p'.realname = p.realname
  loaded : p'.contents.isSome = p.contents.isSome
  flags : p'.flags = p.flags
  field : p'.field = p.field
  env : Env.Hides global p.env p'.env

namespace Veiled

variable {err : Errbuf} {global : Env} {p p' base base' : Pkg}

theorem refl (p : Pkg) : Veiled global p p := ⟨rfl, rfl, rfl, rfl, rfl, fun _ _ => rfl⟩

theorem lookup (h : Veiled global p p') (name : S8) :
    PkgConfig.lookup global p'.env name = PkgConfig.lookup global p.env name := by
  unfold PkgConfig.lookup
  cases hfind : global.find name with
  | some s => rfl
  | none => simp only [h.env name hfind]

theorem expand (h : Veiled global p p') (str : S8) :
    PkgConfig.expand err global p' str = PkgConfig.expand err global p str := by
  rw [expand_run, expand_run]
  refine (expandMachine err global p).run_image (expandMachine err global p') (I := fun _ => True) id id
    (fun _ _ _ _ => trivial) (fun st _ => ?_) ⟨[str], []⟩ trivial
  show expandStep err global p' st = (expandStep err global p st).map id id
  have hsame : expandStep err global p' st = expandStep err global p st := by
    simp only [expandStep, failrecursion, failundefined, h.path, h.lookup]
  rw [hsame]
  cases expandStep err global p st <;> rfl

theorem setField (h : Veiled global p p') (i : Fin 10) (value : Option S8) :
    Veiled global (p.setField i value) (p'.setField i value) :=
  ⟨h.path, h.realname, h.loaded, h.flags, by simp only [Pkg.setField, h.field], h.env⟩

theorem addflags (h : Veiled global p p') (flags : Flags) :
    Veiled global (addflags flags p) (PkgConfig.addflags flags p') :=
  ⟨h.path, h.realname, h.loaded, congrArg (Flags.or · flags) h.flags, h.field, h.env⟩

theorem relocated (h : Veiled global p p') : Veiled global ( setprefix p) ( setprefix p') := by
  simp only [ setprefix, h.path]
  split
  · exact ⟨rfl, h.realname, h.loaded, h.flags, h.field, h.env.bind _ _⟩
  · exact h

theorem version (h : Veiled global p p') : p'.version = p.version := congrFun h.field 3

theorem requires (h : Veiled global p p') : p'.requires = p.requires := congrFun h.field 4

theorem requiresprivate (h : Veiled global p p') : p'.requiresprivate = p.requiresprivate := congrFun h.field 5

theorem libs (h : Veiled global p p') : p'.libs = p.libs := congrFun h.field 7

theorem libsprivate (h : Veiled global p p') : p'.libsprivate = p.libsprivate := congrFun h.field 8

theorem cflags (h : Veiled global p p') : p'.cflags = p.cflags := congrFun h.field 9

theorem failversion (h : Veiled global p p') {op : Versop} {want : S8} :
    failversion err p' op want = PkgConfig.failversion err p op want := by
  rw [PkgConfig.failversion, PkgConfig.failversion, h.realname, h.version]

theorem missingfield (h : Veiled global p p') : missingfield p' = PkgConfig.missingfield p := by
  unfold PkgConfig.missingfield Pkg.name Pkg.version Pkg.description
  rw [h.field]

theorem expandmerge (hbase : Veiled global base base') (h : Veiled global p p') :
    Matches (Veiled global) (expandmerge err global base p) (PkgConfig.expandmerge err global base' p') := by
  refine Matches.foldlM (fun a b i hab => ?_) _ ⟨h.path, hbase.realname, h.loaded, h.flags, hbase.field, h.env⟩
  rw [expandfield, expandfield, h.field]
  simp only [h.expand]
  cases (PkgConfig.expand err global p (bytes (p.field i))).fail with
  | none => exact Matches.ok (hab.setField i _)
  | some f => exact Matches.error

end Veiled

/-! ## Files -/

/-- A variable that `global` has. -/
def Setting.hidden (global : Env) (s : Setting) : Bool := s.delim == 0x3d && (global.find s.name).isSome

/-- The settings of a file that are not hidden, in order. -/
def visible (global : Env) (data : S8) : List Setting := ((entries data).map Entry.setting).filter (!·.hidden global)

/-- The same file, or one that differs in what it sets hidden variables to, or in whether it
    does. -/
inductive Filemap.Veiled (global : Env) : Filemap → Filemap → Prop
  | same (f : Filemap) : Veiled global f f
  | hidden {data data' : S8} (hkeys : (keys (entries data)).Nodup) (hkeys' : (keys (entries data')).Nodup)
      (h : visible global data' = visible global data) : Veiled global (.ok data) (.ok data')

/-- A package has the settings of its file, for the names that are not hidden. -/
theorem get_visible {global : Env} {data : S8} {p : Pkg} {ss : List Setting}
    (hss : (entries data).map Entry.setting = ss) (h : p.Has ss) {k : Key}
    (hk : ∀ s : Setting, s.key = some k → s.hidden global = false) :
    (∀ s ∈ visible global data, s.key = some k → p.get k = some (some s.value)) ∧
      ((∀ s ∈ visible global data, s.key ≠ some k) → p.get k = none) := by
  have hmem {s : Setting} (hkey : s.key = some k) : s ∈ visible global data ↔ s ∈ ss := by
    rw [visible, hss, List.mem_filter, hk s hkey]
    exact and_iff_left rfl
  constructor
  · exact fun s hs hkey => h.bound s ((hmem hkey).mp hs) k hkey
  · intro hnone
    refine h.others k fun hk => ?_
    obtain ⟨s, hs, hkey⟩ := List.mem_filterMap.mp hk
    exact hnone s ((hmem hkey).mpr hs) hkey

/-- Two files that differ in hidden settings give packages with the same fields and the same
    bindings that are not hidden. -/
theorem parsepackage_visible {global : Env} {data data' : S8} (hkeys : (keys (entries data)).Nodup)
    (hkeys' : (keys (entries data')).Nodup) (h : visible global data' = visible global data) :
    ∃ p p', parsepackage data = .ok p ∧ parsepackage data' = .ok p' ∧ p'.field = p.field ∧
      Env.Hides global p.env p'.env := by
  rw [keys_entries] at hkeys hkeys'
  obtain ⟨p, hp, hhas⟩ := (parsepackage_settings rfl).1 hkeys
  obtain ⟨p', hp', hhas'⟩ := (parsepackage_settings rfl).1 hkeys'
  have hget {k : Key} (hk : ∀ s : Setting, s.key = some k → s.hidden global = false) : p'.get k = p.get k := by
    obtain ⟨hbound, hnone⟩ := get_visible rfl hhas hk
    obtain ⟨hbound', hnone'⟩ := get_visible rfl hhas' hk
    rw [h] at hbound' hnone'
    by_cases hex : ∃ s ∈ visible global data, s.key = some k
    · obtain ⟨s, hs, hkey⟩ := hex
      rw [hbound s hs hkey, hbound' s hs hkey]
    · have hno : ∀ s ∈ visible global data, s.key ≠ some k := fun s hs hkey => hex ⟨s, hs, hkey⟩
      rw [hnone hno, hnone' hno]
  refine ⟨p, p', hp, hp', funext fun i => ?_, fun name hname => ?_⟩
  · refine Option.map_injective (Option.some_injective _) (hget (k := .field i) fun s hkey => ?_)
    by_cases hdelim : s.delim == 0x3d
    · rw [Setting.key, if_pos hdelim] at hkey
      cases hkey
    · rw [Setting.hidden, Bool.eq_false_iff.mpr hdelim, Bool.false_and]
  · refine hget (k := .variable_ name) fun s hkey => ?_
    by_cases hdelim : s.delim == 0x3d
    · rw [Setting.key, if_pos hdelim] at hkey
      cases hkey
      rw [Setting.hidden, hname, Option.isSome_none, Bool.and_false]
    · rw [Setting.key, if_neg hdelim] at hkey
      obtain ⟨i, -, hi⟩ := Option.map_eq_some_iff.mp hkey
      cases hi

/-! ## Loading -/

section

variable {mapfile mapfile' : S8 → Filemap} {global : Env}

theorem readpackage_veiled (err : Errbuf) (h : ∀ path, (mapfile path).Veiled global (mapfile' path))
    (path realname : S8) : Matches (Option.Rel fun data data' => (Filemap.ok data).Veiled global (.ok data'))
      (readpackage mapfile err path realname) (readpackage mapfile' err path realname) := by
  unfold readpackage
  split
  · exact Matches.ok (.some (.same _))
  · have hpath := h path
    revert hpath
    generalize mapfile path = f, mapfile' path = f'
    intro hpath
    cases hpath with
    | same =>
      cases f with
      | ok data => exact Matches.ok (.some (.same _))
      | notfound => exact Matches.ok .none
      | readerr => exact Matches.error
    | hidden hkeys hkeys' h => exact Matches.ok (.some (.hidden hkeys hkeys' h))

/-- Where a package was found, and what is there. -/
def Opened (global : Env) (a b : S8 × S8 × S8) : Prop :=
  b.1 = a.1 ∧ b.2.1 = a.2.1 ∧ (Filemap.ok a.2.2).Veiled global (.ok b.2.2)

theorem searchdirs_veiled (err : Errbuf) (h : ∀ path, (mapfile path).Veiled global (mapfile' path)) (realname : S8)
    (dirs : List S8) (path : S8) :
    Matches (fun a b => b.1 = a.1 ∧ Option.Rel (fun data data' => (Filemap.ok data).Veiled global (.ok data')) a.2 b.2)
      (searchdirs mapfile err realname dirs path) (searchdirs mapfile' err realname dirs path) := by
  induction dirs generalizing path with
  | nil => exact Matches.ok ⟨rfl, .none⟩
  | cons dir dirs ih =>
    have hread := readpackage_veiled err h (buildpath dir realname) realname
    rw [searchdirs, searchdirs]
    rcases hread.inversion with ⟨c, c', hx, hy, hc⟩ | ⟨f, hx, hy⟩
    · rw [hx, hy]
      cases hc with
      | none => exact ih _
      | some hdata => exact Matches.ok ⟨rfl, .some hdata⟩
    · rw [hx, hy]
      exact Matches.error

/-- What a package is, from a file that was tried first or those of the directories. -/
def opened (err : Errbuf) (dirs : Search) (realname : S8) (mapfile : S8 → Filemap) : Option S8 →
    Except Fail (S8 × S8 × S8)
  | some contents => .ok (realname, pathtorealname realname, contents)
  | none => do
    let found ← searchdirs mapfile err realname dirs.list []
    match found.2 with
    | some contents => .ok (found.1, realname, contents)
    | none => .error (failfind err realname)

theorem openpackage_bind (mapfile : S8 → Filemap) (err : Errbuf) (dirs : Search) (realname : S8) :
    openpackage mapfile err dirs realname =
      (if realnameispath realname then readpackage mapfile err (realname ++ [0]) realname else .ok none) >>=
        opened err dirs realname mapfile := by
  unfold openpackage
  cases realnameispath realname <;> rfl

theorem openpackage_veiled (err : Errbuf) (h : ∀ path, (mapfile path).Veiled global (mapfile' path)) (dirs : Search)
    (realname : S8) :
    Matches (Opened global) (openpackage mapfile err dirs realname) (openpackage mapfile' err dirs realname) := by
  have hfirst : Matches (Option.Rel fun data data' => (Filemap.ok data).Veiled global (.ok data'))
      (if realnameispath realname then readpackage mapfile err (realname ++ [0]) realname else .ok none)
      (if realnameispath realname then readpackage mapfile' err (realname ++ [0]) realname else .ok none) := by
    split
    · exact readpackage_veiled err h (realname ++ [0]) realname
    · exact Matches.ok .none
  rw [openpackage_bind, openpackage_bind]
  refine hfirst.bind ?_
  rintro first first' (hdata | _)
  · exact Matches.ok ⟨rfl, rfl, hdata⟩
  · refine (searchdirs_veiled err h realname dirs.list []).bind ?_
    rintro ⟨path, found⟩ ⟨path', found'⟩ ⟨rfl, hdata | _⟩
    · exact Matches.ok ⟨rfl, rfl, hdata⟩
    · exact Matches.error

theorem findpackage_veiled (err : Errbuf) (h : ∀ path, (mapfile path).Veiled global (mapfile' path)) (dirs : Search)
    (realname : S8) :
    Matches (Veiled global) (findpackage mapfile err dirs realname) (findpackage mapfile' err dirs realname) := by
  unfold findpackage
  refine (openpackage_veiled err h dirs realname).bind ?_
  rintro ⟨_, _, data⟩ ⟨path, realname', data'⟩ ⟨rfl, rfl, hdata⟩
  cases hdata with
  | same =>
    simp only
    cases parsepackage data with
    | dupvariable name => exact Matches.error
    | dupfield name => exact Matches.error
    | ok p =>
      simp only
      split
      · exact Matches.error
      · exact Matches.ok (.refl _)
  | hidden hkeys hkeys' hvisible =>
    obtain ⟨p, p', hp, hp', hfield, henv⟩ := parsepackage_visible hkeys hkeys' hvisible
    obtain ⟨hcontents, hflags⟩ := parsepackage_rest hp
    obtain ⟨hcontents', hflags'⟩ := parsepackage_rest hp'
    have hfound : Veiled global
        { p with
          path, realname := realname', env := p.env.bind (S "pcfiledir") (some (s8pathencode (dirname path))) }
        { p' with
          path, realname := realname', env := p'.env.bind (S "pcfiledir") (some (s8pathencode (dirname path))) } :=
      ⟨rfl, rfl, by rw [hcontents, hcontents']; rfl, hflags'.trans hflags.symm, hfield, henv.bind _ _⟩
    simp only [hp, hp', hfound.missingfield]
    split
    · exact Matches.error
    · exact Matches.ok hfound

theorem loadpackage_veiled (err : Errbuf) (h : ∀ path, (mapfile path).Veiled global (mapfile' path)) (dirs : Search)
    (define : Bool) {base base' : Pkg} (hbase : Veiled global base base') (tok : S8) :
    Matches (Veiled global) (loadpackage mapfile err global dirs define base tok)
      (loadpackage mapfile' err global dirs define base' tok) := by
  refine (findpackage_veiled err h dirs tok).bind fun p p' hp => ?_
  cases define with
  | false => exact hbase.expandmerge hp
  | true => exact hbase.expandmerge hp.relocated

end

/-! ## Packages -/

/-- The packages of two sets, in order. -/
def Pkgs.Veiled (global : Env) (t t' : Pkgs) : Prop := List.Forall₂ (PkgConfig.Veiled global) t.list t'.list

section

variable {global : Env} {l l' : List Pkg}

theorem findname_veiled (h : List.Forall₂ (Veiled global) l l') (realname : S8) :
    findname l' realname = findname l realname := by
  induction h with
  | nil => rfl
  | cons hp _ ih =>
    rw [findname, List.findIdx?_cons, hp.realname]
    rw [findname] at ih
    rw [ih, findname, findname, List.findIdx?_cons]

theorem getD_veiled (h : List.Forall₂ (Veiled global) l l') (i : Nat) :
    Veiled global (l.getD i Pkg.zero) (l'.getD i Pkg.zero) := by
  induction h generalizing i with
  | nil => exact .refl _
  | cons hp _ ih =>
    cases i with
    | zero => exact hp
    | succ i => exact ih i

theorem modify_veiled (h : List.Forall₂ (Veiled global) l l') (i : Nat) {f f' : Pkg → Pkg}
    (hf : ∀ p p', Veiled global p p' → Veiled global (f p) (f' p')) :
    List.Forall₂ (Veiled global) (l.modify i f) (l'.modify i f') := by
  induction h generalizing i with
  | nil => cases i <;> exact .nil
  | cons hp hl ih =>
    cases i with
    | zero => exact .cons (hf _ _ hp) hl
    | succ i => exact .cons hp (ih i)

theorem Pkgs.Veiled.locate {t t' : Pkgs} (h : Pkgs.Veiled global t t') (realname : S8) :
    Pkgs.Veiled global (t.locate realname).1 (t'.locate realname).1 ∧
      (t'.locate realname).2 = (t.locate realname).2 := by
  have hname := findname_veiled h realname
  rcases t.locate_cases realname with ⟨i, hi, ht⟩ | ⟨hi, hlist, hlast⟩
  · rcases t'.locate_cases realname with ⟨j, hj, ht'⟩ | ⟨hj, -, -⟩
    · rw [ht, ht']
      refine ⟨h, Option.some.inj ?_⟩
      rw [← hj, ← hi, hname]
    · rw [hname, hi] at hj
      cases hj
  · rcases t'.locate_cases realname with ⟨j, hj, -⟩ | ⟨-, hlist', hlast'⟩
    · rw [hname, hi] at hj
      cases hj
    · refine ⟨?_, ?_⟩
      · rw [Pkgs.Veiled, hlist, hlist']
        exact List.rel_append h (.cons (.refl _) .nil)
      · rw [hlast, hlast', List.Forall₂.length_eq h]

end

/-! ## The processor -/

/-- The same frames over veiled packages. -/
structure Procrun.Veiled (global : Env) (st st' : Procrun) : Prop where
  top : st'.top = st.top
  below : st'.below = st.below
  pkgs : Pkgs.Veiled global st.pkgs st'.pkgs

structure Procend.Veiled (global : Env) (e e' : Procend) : Prop where
  last : e'.last = e.last
  op : e'.op = e.op
  pkgs : Pkgs.Veiled global e.pkgs e'.pkgs

section

variable {mapfile mapfile' : S8 → Filemap} {proc : Processor}

theorem procpackage_veiled (h : ∀ path, (mapfile path).Veiled proc.global (mapfile' path)) {st st' : Procrun}
    (hst : st.Veiled proc.global st') (tok tail : S8) :
    Matches (Procrun.Veiled proc.global) (procpackage mapfile proc st tok tail)
      (procpackage mapfile' proc st' tok tail) := by
  obtain ⟨_, _, pkgs⟩ := st
  obtain ⟨top, below, pkgs'⟩ := st'
  obtain ⟨rfl, rfl, hpkgs⟩ := hst
  obtain ⟨hlocated, hindex⟩ := hpkgs.locate (pathtorealname tok)
  unfold procpackage
  simp only
  generalize pkgs.locate (pathtorealname tok) = located at hlocated hindex ⊢
  generalize pkgs'.locate (pathtorealname tok) = located' at hlocated hindex ⊢
  obtain ⟨t, _⟩ := located
  obtain ⟨t', i⟩ := located'
  obtain rfl : i = _ := hindex
  have hget : Veiled proc.global (t.get i) (t'.get i) := getD_veiled hlocated i
  simp only [hget.loaded, hget.flags, hget.requires]
  split
  · have hadded : Pkgs.Veiled proc.global (t.update i (addflags top.flags) fun _ => rfl)
        (t'.update i (addflags top.flags) fun _ => rfl) :=
      modify_veiled hlocated i fun _ _ hp => hp.addflags top.flags
    split
    · split
      · exact Matches.error
      · exact Matches.ok ⟨rfl, rfl, hadded⟩
    · exact Matches.ok ⟨rfl, rfl, hadded⟩
  · have hload := loadpackage_veiled proc.err h proc.search proc.define_prefix hget tok
    rcases hload.inversion with ⟨p, p', hx, hy, hp⟩ | ⟨f, hx, hy⟩
    · have hstored : Pkgs.Veiled proc.global
          (t.update i (fun base => { addflags top.flags p with realname := base.realname }) fun _ => rfl)
          (t'.update i (fun base => { addflags top.flags p' with realname := base.realname }) fun _ => rfl) :=
        modify_veiled hlocated i fun base base' hbase =>
          let hadded := hp.addflags top.flags
          ⟨hadded.path, hbase.realname, hadded.loaded, hadded.flags, hadded.field, hadded.env⟩
      simp only [hx, hy, hp.requires, hp.requiresprivate]
      split
      · split
        · exact Matches.error
        · exact Matches.ok ⟨rfl, rfl, hstored⟩
      · exact Matches.ok ⟨rfl, rfl, hstored⟩
    · simp only [hx, hy]
      exact Matches.error

/-- A turn does the same. -/
theorem procStep_veiled (h : ∀ path, (mapfile path).Veiled proc.global (mapfile' path)) {st st' : Procrun}
    (hst : st.Veiled proc.global st') :
    (procStep mapfile proc st).Related (Procrun.Veiled proc.global) (Matches (Procend.Veiled proc.global))
      (procStep mapfile' proc st') := by
  have hpackage := procpackage_veiled h hst
  obtain ⟨_, _, pkgs⟩ := st
  obtain ⟨top, below, pkgs'⟩ := st'
  obtain ⟨rfl, rfl, hpkgs⟩ := hst
  have hget (i : Nat) : Veiled proc.global (pkgs.get i) (pkgs'.get i) := getD_veiled hpkgs i
  by_cases htok : (nexttoken top.arg).1 = []
  · simp only [procStep, if_pos htok]
    cases below with
    | nil => exact ⟨rfl, rfl, hpkgs⟩
    | cons frame below =>
      simp only
      split
      · show procfail proc.err top.op (top.last.map pkgs'.get) = procfail proc.err top.op (top.last.map pkgs.get)
        cases top.last with
        | none => rfl
        | some i => simp only [procfail, Option.map_some, (hget i).realname]
      · exact ⟨rfl, rfl, hpkgs⟩
  · by_cases hop : top.op ≠ .ERR
    · simp only [procStep, if_neg htok, dif_pos hop, (hget _).version]
      split
      · exact (hget _).failversion
      · exact ⟨rfl, rfl, hpkgs⟩
    · simp only [procStep, if_neg htok, dif_neg hop]
      split
      · cases top.last with
        | none => exact rfl
        | some i => exact ⟨rfl, rfl, hpkgs⟩
      · have hnext := hpackage (nexttoken top.arg).1 (nexttoken top.arg).2
        rcases hnext.inversion with ⟨st, st', hx, hy, hR⟩ | ⟨f, hx, hy⟩
        · rw [hx, hy]
          exact hR
        · rw [hx, hy]
          exact rfl

/-- The processors have this environment, and differ in their packages only. -/
structure Processor.Veiled (global : Env) (proc proc' : Processor) : Prop where
  has : proc.global = global
  config : proc' = { proc with pkgs := proc'.pkgs }
  pkgs : Pkgs.Veiled global proc.pkgs proc'.pkgs

variable {global : Env}

theorem process_veiled (h : ∀ path, (mapfile path).Veiled global (mapfile' path)) {proc proc' : Processor}
    (hproc : Processor.Veiled global proc proc') (arg : S8) :
    Matches (Processor.Veiled global) (process mapfile proc arg) (process mapfile' proc' arg) := by
  obtain ⟨rfl, hconfig, hpkgs⟩ := hproc
  have hstep : procStep mapfile' proc' = procStep mapfile' proc := by
    rw [hconfig]
    rfl
  have hframe : proc'.frame arg = proc.frame arg := by
    rw [hconfig]
    rfl
  have hrun : Matches (Procend.Veiled proc.global)
      ((procMachine mapfile proc).run ⟨proc.frame arg, [], proc.pkgs⟩)
      ((procMachine mapfile' proc').run ⟨proc'.frame arg, [], proc'.pkgs⟩) := by
    refine (procMachine mapfile proc).run_related (procMachine mapfile' proc') (R := Procrun.Veiled proc.global)
      (fun st st' hst => ?_) _ _ ⟨hframe, rfl, hpkgs⟩
    show (procStep mapfile proc st).Related _ _ (procStep mapfile' proc' st')
    rw [hstep]
    exact procStep_veiled h hst
  unfold process
  rcases hrun.inversion with ⟨e, e', hx, hy, hends⟩ | ⟨f, hx, hy⟩
  · obtain ⟨last, op, pending, pkgs⟩ := e
    obtain ⟨_, _, _, pkgs'⟩ := e'
    obtain ⟨rfl, rfl, hpkgs⟩ := hends
    rw [hx, hy]
    refine ⟨rfl, ?_, hpkgs⟩
    rw [hconfig]
  · rw [hx, hy]
    exact Matches.error

theorem processargs_veiled (h : ∀ path, (mapfile path).Veiled global (mapfile' path)) {proc proc' : Processor}
    (hproc : Processor.Veiled global proc proc') (args : List S8) :
    Matches (Processor.Veiled global) (processargs mapfile proc args) (processargs mapfile' proc' args) :=
  Matches.foldlM (fun _ _ arg hproc => process_veiled h hproc arg) args hproc

end

/-! ## The run -/

section

variable {global : Env} {proc proc' : Processor}

theorem checkall_veiled (h : Processor.Veiled global proc proc') (st : Optstate) :
    checkall st proc' = checkall st proc := by
  obtain ⟨-, hconfig, hpkgs⟩ := h
  have hend : endprocessor proc' (errbuf st) = endprocessor proc (errbuf st) := by
    rw [hconfig]
    rfl
  have hcount : checkcount (errbuf st) proc'.pkgs = checkcount (errbuf st) proc.pkgs := by
    rw [checkcount, checkcount, Pkgs.count, Pkgs.count, List.Forall₂.length_eq hpkgs]
  have hversions : checkversions (errbuf st) st.override_op st.override_version proc'.pkgs.list =
      checkversions (errbuf st) st.override_op st.override_version proc.pkgs.list := by
    unfold checkversions
    split
    · rfl
    · refine forM_related hpkgs fun p p' hp => ?_
      rw [hp.version, hp.failversion]
  rw [checkall, checkall, hend, hcount, hversions]

variable {l l' : List Pkg}

theorem printmodversion_veiled (h : List.Forall₂ (Veiled global) l l') (st : Optstate) :
    printmodversion st l' = printmodversion st l := by
  unfold printmodversion
  split
  · refine forM_related h fun p p' hp => ?_
    rw [hp.flags, hp.version]
  · rfl

theorem printvariable_veiled (h : List.Forall₂ (Veiled global) l l') (st : Optstate) :
    printvariable st global l' = printvariable st global l := by
  unfold printvariable
  split
  · rfl
  · refine forM_related h fun p p' hp => ?_
    simp only [hp.flags, hp.lookup, printexpanded, hp.expand]

theorem appendfield_veiled {p p' : Pkg} (h : Veiled global p p') (err : Errbuf) (w : Fieldwriter) (field : S8) :
    appendfield err w p' field = appendfield err w p field := by
  rw [appendfield_eq, appendfield_eq]
  cases fieldargs field with
  | some args => rfl
  | none => rw [Fieldwriter.give, Fieldwriter.give, failquote, failquote, h.realname]

theorem printcflags_veiled (h : List.Forall₂ (Veiled global) l l') (conf : Config) (st : Optstate) (argcount : Nat) :
    printcflags conf st l' argcount = printcflags conf st l argcount := by
  have hfields := foldlM_related (m := Except Fail) (f := appendcflags (errbuf st)) (g := appendcflags (errbuf st)) h
    (fun w p p' hp => by rw [appendcflags, appendcflags, hp.cflags, appendfield_veiled hp]) (cflagswriter conf st)
  rw [printcflags, printcflags, hfields]

theorem printlibs_veiled (h : List.Forall₂ (Veiled global) l l') (conf : Config) (st : Optstate) (argcount : Nat) :
    printlibs conf st l' argcount = printlibs conf st l argcount := by
  have hfields := foldlM_related (m := Except Fail) (f := appendlibs (errbuf st) st.static_)
    (g := appendlibs (errbuf st) st.static_) h
    (fun w p p' hp => by
      unfold appendlibs
      simp only [hp.libs, hp.libsprivate, hp.flags, appendfield_veiled hp]) (libswriter conf st)
  rw [printlibs, printlibs, hfields]

theorem conclude_veiled (h : Processor.Veiled global proc proc') (conf : Config) (st : Optstate) :
    conclude conf st proc' = conclude conf st proc := by
  have hglobal : proc'.global = proc.global := by rw [h.config]
  have hpkgs : List.Forall₂ (Veiled proc.global) proc.pkgs.list proc'.pkgs.list := by
    rw [h.has]
    exact h.pkgs
  have hreport : report conf st proc' = report conf st proc := by
    unfold report
    rw [hglobal, printmodversion_veiled hpkgs, printvariable_veiled hpkgs]
    simp only [printcflags_veiled hpkgs, printlibs_veiled hpkgs]
  rw [conclude, conclude, checkall_veiled h, hreport]

end

/-- For every configuration and all files: with any other files, each of which is the same
    or differs in nothing but what it binds to variables that the command line defines or
    that are built in, the run is the same. -/
theorem uconfig_hides (mapfile mapfile' : S8 → Filemap) (conf : Config)
    (h : ∀ st, Parsed conf st → ∀ path, (mapfile path).Veiled st.proc.global (mapfile' path)) :
    uconfig mapfile' conf = uconfig mapfile conf := by
  unfold uconfig
  cases hout : (optionloop (newoptions conf.args) (newoptstate conf)).2 with
  | error e => cases e <;> rfl
  | ok st =>
    have hsame : Processor.Veiled st.proc.global st.proc st.proc :=
      ⟨rfl, rfl, List.forall₂_same.mpr fun p _ => .refl p⟩
    have hprocess := processargs_veiled (h st hout) hsame st.args
    have hafter : afteroptions mapfile' conf st = afteroptions mapfile conf st := by
      unfold afteroptions
      rcases hprocess.inversion with ⟨proc, proc', hx, hy, hproc⟩ | ⟨f, hx, hy⟩
      · rw [hx, hy]
        exact conclude_veiled hproc conf st
      · rw [hx, hy]
    simp only [hafter]

/-- A package that binds `dir`, or does not. -/
def dirfiles (binding : S8) : S8 → Filemap :=
  onefile (S "/lib/pkgconfig") (binding ++ S "Name: x\nVersion: 1\nDescription:\nCflags: -I${dir}\n")

theorem uconfig_hides_dir :
    uconfig (dirfiles []) (plainconf [S "--define-variable=dir=/a", S "--cflags", S "x"]) =
      uconfig (dirfiles (S "dir = /b\n")) (plainconf [S "--define-variable=dir=/a", S "--cflags", S "x"]) := by
  refine uconfig_hides _ _ (plainconf [S "--define-variable=dir=/a", S "--cflags", S "x"]) fun st hst path => ?_
  have hall : (optionloop (newoptions (plainconf [S "--define-variable=dir=/a", S "--cflags", S "x"]).args)
      (newoptstate (plainconf [S "--define-variable=dir=/a", S "--cflags", S "x"]))).2.toOption.all (fun st =>
        visible st.proc.global (S "Name: x\nVersion: 1\nDescription:\nCflags: -I${dir}\n") ==
          visible st.proc.global (S "dir = /b\nName: x\nVersion: 1\nDescription:\nCflags: -I${dir}\n")) = true := by
    decide +kernel
  rw [show (optionloop _ _).2 = _ from hst] at hall
  unfold dirfiles onefile
  split
  · exact .hidden (by decide +kernel) (by decide +kernel) (beq_iff_eq.mp hall)
  · exact .same _

end GnuWindows.PkgConfig
