/-
  GnuWindows.PkgConfig.Bounds — what bounds a run of the processor.

  Proved:
  - `process_bounded`: every run ends; the frames stay within the array, or the run fails;
    no name is loaded or made public twice; and the table has each located name once.
-/
import GnuWindows.PkgConfig.Turns

namespace GnuWindows.PkgConfig

open GnuWindows.Lib
open GnuWindows.Lib.BoundedStack

variable {mapfile : S8 → Filemap} {proc proc' : Processor} {args : List S8} {x y m : Moment}

/-! ## Events -/

/-- The real name that `locate` is called with. -/
def Moment.located (m : Moment) : Option S8 := m.run.top.package?.map pathtorealname

/-- The package that `locate` gives for a name. -/
def Moment.package (m : Moment) (n : S8) : Pkg := (m.run.pkgs.locate n).1.get (m.run.pkgs.locate n).2

/-- The name `locate` allocates a package for. -/
def Moment.allocates (m : Moment) : Option S8 :=
  m.located.bind fun n => if (findpkg m.run.pkgs.pkgs n).isNone then some n else none

/-- The name a package is found, read and parsed for. -/
def Moment.loads (m : Moment) : Option S8 :=
  m.located.bind fun n => if (m.package n).contents.isNone then some n else none

/-- The name of a package that becomes public after it was loaded. -/
def Moment.promotes (m : Moment) : Option S8 :=
  m.located.bind fun n =>
    if (m.package n).contents.isSome ∧ Promoted m.run.top.flags (m.package n) then some n else none

/-- How many frames a package token pushes. -/
def Moment.pushes (proc : Processor) (m : Moment) : Nat :=
  m.located.elim 0 fun n =>
    if m.run.top.depth + 1 < proc.limit then
      if (m.package n).contents.isNone then 2 else if Promoted m.run.top.flags (m.package n) then 1 else 0
    else 0

theorem located_added (m : Moment) : m.added = m.located.bind fun n => if n ∈ m.names then none else some n := by
  unfold Moment.added Moment.located
  cases m.run.top.package? <;> rfl

theorem mem_names_iff (m : Moment) (n : S8) : n ∈ m.names ↔ findname m.run.pkgs.list n ≠ none := by
  constructor
  · intro hn he
    obtain ⟨p, hp, hpn⟩ := List.mem_map.mp hn
    exact findname_none he p hp hpn
  · intro hne
    obtain ⟨i, hi⟩ := Option.ne_none_iff_exists'.mp hne
    obtain ⟨p, hp, hpn⟩ := findname_some hi
    exact List.mem_map.mpr ⟨p, List.mem_of_getElem? hp, hpn⟩

/-- The package of a name in the table. -/
theorem package_mem (hm : Coherent m) {p : Pkg} (hp : p ∈ m.run.pkgs.list) : m.package p.realname = p := by
  have hn : p.realname ∈ m.names := List.mem_map_of_mem hp
  unfold Moment.package
  rcases m.run.pkgs.locate_cases p.realname with ⟨i, hi, hloc⟩ | ⟨hnone, _⟩
  · obtain ⟨q, hq, hqn⟩ := findname_some hi
    rw [hloc]
    simp only [Pkgs.get, List.getD, hq, Option.getD_some]
    exact List.inj_on_of_nodup_map hm.distinct (List.mem_of_getElem? hq) hp hqn
  · exact absurd hnone ((mem_names_iff m _).mp hn)

/-- A name that is not in the table gets a package that is zero but for the name. -/
theorem package_new {n : S8} (hn : n ∉ m.names) : m.package n = { Pkg.zero with realname := n } := by
  unfold Moment.package
  rcases m.run.pkgs.locate_cases n with ⟨i, hi, _⟩ | ⟨_, hlist, hidx⟩
  · exact absurd ((mem_names_iff m n).mpr (by rw [hi]; simp)) hn
  · simp [Pkgs.get, hlist, hidx]

theorem contents_isSome_iff (hm : Coherent m) (n : S8) : (m.package n).contents.isSome = true ↔ n ∈ m.names := by
  by_cases hn : n ∈ m.names
  · obtain ⟨p, hp, rfl⟩ := List.mem_map.mp hn
    rw [package_mem hm hp]
    exact iff_of_true (hm.contents p hp) hn
  · rw [package_new hn]
    exact iff_of_false (by simp [Pkg.zero]) hn

/-- A package is loaded when it is allocated. -/
theorem loads_added (hm : Coherent m) : m.loads = m.added := by
  rw [located_added, Moment.loads]
  congr 1
  funext n
  have h := contents_isSome_iff hm n
  by_cases hn : n ∈ m.names
  · rw [if_pos hn, if_neg]
    rw [Option.isNone_iff_eq_none, ← Option.not_isSome_iff_eq_none]
    exact not_not_intro (h.mpr hn)
  · rw [if_neg hn, if_pos]
    rw [Option.isNone_iff_eq_none, ← Option.not_isSome_iff_eq_none]
    exact mt h.mp hn

theorem allocates_added (m : Moment) : m.allocates = m.added := by
  rw [located_added, Moment.allocates]
  congr 1
  funext n
  rw [m.run.pkgs.located]
  by_cases hn : n ∈ m.names
  · rw [if_pos hn, if_neg]
    rw [Option.isNone_iff_eq_none]
    exact (mem_names_iff m n).mp hn
  · rw [if_neg hn, if_pos]
    rw [Option.isNone_iff_eq_none]
    exact Decidable.not_not.mp (mt (mem_names_iff m n).mpr hn)

/-! ## Once -/

/-- The name of a public package. -/
def Moment.isPublic (m : Moment) (n : S8) : Prop := ∃ p ∈ m.run.pkgs.list, p.realname = n ∧ p.flags.pkgPublic = true

theorem promotes_some {n : S8} (h : m.promotes = some n) :
    ∃ tok, m.run.top.package? = some tok ∧ pathtorealname tok = n ∧ (m.package n).contents.isSome = true ∧
      Promoted m.run.top.flags (m.package n) := by
  obtain ⟨n', hn', he⟩ := Option.bind_eq_some_iff.mp h
  obtain ⟨tok, htok, rfl⟩ := Option.map_eq_some_iff.mp hn'
  split at he
  · rename_i hpro
    cases he
    exact ⟨tok, htok, rfl, hpro⟩
  · cases he

theorem added_once (hf : Fresh proc) (args : List S8) :
    ((processruns mapfile proc args).filterMap Moment.added).Nodup := by
  refine Trace.nodup_events Moment.added (fun m n => n ∈ m.names) (processruns_reading hf args) ?_ ?_
  · intro x _ n hn
    exact added_none hn
  · intro x y hread n hn
    rw [hread.names, List.mem_append, Option.mem_toList]
    exact hn

theorem promotes_once (hf : Fresh proc) (args : List S8) :
    ((processruns mapfile proc args).filterMap Moment.promotes).Nodup := by
  have hchain : (processruns mapfile proc args).IsChain fun x y => Coherent x ∧ Reading mapfile proc x y :=
    (processruns_reading hf args).imp_of_mem_imp fun x _ hx _ hread => ⟨processruns_coherent hf args x hx, hread⟩
  refine Trace.nodup_events Moment.promotes Moment.isPublic hchain ?_ ?_
  · intro x hx n hn hpublic
    obtain ⟨p, hp, rfl, hpub⟩ := hpublic
    obtain ⟨tok, _, _, _, hpro⟩ := promotes_some hn
    rw [package_mem (processruns_coherent hf args x hx) hp] at hpro
    rw [hpro.2] at hpub
    cases hpub
  · intro x y h n hn
    obtain ⟨hx, hread⟩ := h
    rcases hn with hpublic | hpro
    · obtain ⟨p, hp, rfl, hpub⟩ := hpublic
      obtain ⟨q, hq, hle⟩ := hread.grows.mem hp
      exact ⟨q, hq, hle.realname, hle.2.2 hpub⟩
    · obtain ⟨tok, htok, rfl, hsome, hpro⟩ := promotes_some hpro
      have hmem := (contents_isSome_iff hx _).mp hsome
      cases hread with
      | none hnone _ _ => rw [htok] at hnone; cases hnone
      | @met tok' i p rest htok' hp hn hlist _ _ =>
        obtain rfl : tok = tok' := Option.some.inj (htok.symm.trans htok')
        refine ⟨addflags x.run.top.flags p, ?_, hn, by simp [addflags, Flags.or, hpro.1]⟩
        rw [hlist]
        refine List.mem_of_getElem? (i := i) ?_
        rw [List.getElem?_modify, hp]
        simp
      | @load tok' q rest htok' hnew _ _ _ _ =>
        obtain rfl : tok = tok' := Option.some.inj (htok.symm.trans htok')
        obtain ⟨p, hp, hn⟩ := List.mem_map.mp hmem
        exact absurd hn (hnew p hp)

/-! ## The table -/

/-- The table has the names that were added, in order. -/
theorem names_log (hf : Fresh proc) {before after : List Moment}
    (hsplit : processruns mapfile proc args = before ++ m :: after) : m.names = before.filterMap Moment.added := by
  obtain ⟨arg, later, hhead, _⟩ := processruns_head mapfile proc args
  have hlog :=
    Trace.log_events Moment.added Moment.names (processruns_reading hf args) (fun x y h => h.names) hhead hsplit
  have hempty : proc.pkgs.list = [] := by rw [hf.pkgs]; rfl
  rw [hlog]
  simp [Moment.names, hempty]

theorem names_located (hf : Fresh proc) {before after : List Moment}
    (hsplit : processruns mapfile proc args = before ++ m :: after) (n : S8) :
    n ∈ m.names ↔ n ∈ before.filterMap Moment.located := by
  rw [names_log hf hsplit]
  constructor
  · intro hn
    obtain ⟨x, hx, he⟩ := List.mem_filterMap.mp hn
    rw [located_added] at he
    obtain ⟨n', hn', he⟩ := Option.bind_eq_some_iff.mp he
    split at he
    · cases he
    · cases he
      exact List.mem_filterMap.mpr ⟨x, hx, hn'⟩
  · intro hn
    obtain ⟨x, hx, he⟩ := List.mem_filterMap.mp hn
    obtain ⟨b, b', rfl⟩ := List.append_of_mem hx
    rw [List.filterMap_append, List.mem_append]
    by_cases hin : n ∈ x.names
    · left
      rw [← names_log hf (hsplit.trans (List.append_assoc b (x :: b') (m :: after)))]
      exact hin
    · right
      refine List.mem_filterMap.mpr ⟨x, List.mem_cons_self, ?_⟩
      rw [located_added, he, Option.bind_some, if_neg hin]

/-! ## The frames -/

theorem pushes_eq (proc : Processor) {tok : S8} (htok : m.run.top.package? = some tok) :
    m.pushes proc = if m.run.top.depth + 1 < proc.limit then
      if (m.package (pathtorealname tok)).contents.isNone then 2
      else if Promoted m.run.top.flags (m.package (pathtorealname tok)) then 1 else 0 else 0 := by
  simp [Moment.pushes, Moment.located, htok]

/-- When the frames of a package token do not fit, the run fails there: the package cannot
    be loaded, or the message names the token. -/
theorem procStep_overfull (hm : Coherent m) {tok : S8} (htok : m.run.top.package? = some tok)
    (hfull : 255 < m.run.below.length + m.pushes proc) :
    procStep mapfile proc m.run = .stop (.error (failmaxrecurse proc.err tok)) ∨
      ∃ f, proc.load mapfile (pathtorealname tok) tok = .error f ∧ procStep mapfile proc m.run = .stop (.error f) := by
  have hheight := hm.height
  obtain ⟨htok', hne, hop, hparse⟩ := package?_some htok
  have hstep : procStep mapfile proc m.run =
      Next.ofExcept (procpackage mapfile proc m.run tok (nexttoken m.run.top.arg).2) := by
    simp [procStep, htok', hne, hop, hparse]
  have hpushes := pushes_eq proc htok
  rw [hstep]
  -- a token that pushes something is near enough, and pushes too much
  have hdesc : (proc.recursive && decide (m.run.top.depth + 1 < proc.maxdepth)) = true := by
    rw [descends_iff]
    by_contra hn
    rw [hpushes, if_neg hn] at hfull
    omega
  rw [if_pos ((descends_iff _ _).mp hdesc)] at hpushes
  cases hsome : (m.package (pathtorealname tok)).contents.isSome with
  | true =>
    have hpro : Promoted m.run.top.flags (m.package (pathtorealname tok)) := by
      by_contra hn
      rw [hpushes, if_neg (by simp [← Option.not_isSome, hsome]), if_neg hn] at hfull
      omega
    have hcap : 255 ≤ m.run.below.length := by
      rw [hpushes, if_neg (by simp [← Option.not_isSome, hsome]), if_pos hpro] at hfull
      omega
    have hboth : (m.run.top.flags.pkgPublic && !(m.package (pathtorealname tok)).flags.pkgPublic &&
        (proc.recursive && decide (m.run.top.depth + 1 < proc.maxdepth))) = true :=
      (promotes_iff _ _ _ _).mpr ⟨hpro, (descends_iff _ _).mp hdesc⟩
    left
    simp only [Moment.package] at hsome hboth
    simp only [procpackage]
    rw [if_pos hsome, if_pos hboth, if_pos hcap]
    rfl
  | false =>
    have hcap : 254 ≤ m.run.below.length := by
      rw [hpushes, if_pos (by simp [← Option.not_isSome, hsome])] at hfull
      omega
    have hnew : pathtorealname tok ∉ m.names := by
      rw [← contents_isSome_iff hm, hsome]
      exact Bool.false_ne_true
    have hpkg := package_new hnew
    have hnot : ¬ (m.package (pathtorealname tok)).contents.isSome = true := by rw [hsome]; exact Bool.false_ne_true
    simp only [Moment.package] at hpkg hnot
    simp only [procpackage]
    rw [if_neg hnot, hpkg]
    cases hload : proc.load mapfile (pathtorealname tok) tok with
    | error f =>
      right
      refine ⟨f, rfl, ?_⟩
      unfold Processor.load at hload
      rw [hload]
      rfl
    | ok q =>
      left
      unfold Processor.load at hload
      rw [hload]
      simp only
      rw [if_pos hdesc, if_pos hcap]
      rfl

/-- When they fit, that many frames are pushed. -/
theorem turned_pushes (hx : Coherent x) (h : Turned mapfile proc x y) (hp : x.run.top.package?.isSome = true) :
    y.run.below.length = x.run.below.length + x.pushes proc := by
  obtain ⟨tok, htok⟩ := Option.isSome_iff_exists.mp hp
  obtain ⟨htok', hne, hop, hparse⟩ := package?_some htok
  rw [pushes_eq proc htok]
  cases h with
  | @arg st e later arg hstop =>
    have := (procStep_ok hstop).1
    exact absurd (htok'.symm.trans this) hne
  | @step st st' later hstep =>
    have hpackage : procpackage mapfile proc st tok (nexttoken st.top.arg).2 = .ok st' := by
      rcases procStep_cases hstep with ⟨h, _⟩ | ⟨_, h, _⟩ | ⟨_, _, h, _⟩ | ⟨_, _, _, h⟩
      · exact absurd (htok'.symm.trans h) hne
      · exact absurd hop h
      · rw [htok'] at h
        exact absurd hparse h
      · rw [htok'] at h
        exact h
    rcases procpackage_cases hpackage hx.contents with ⟨i, p, hpi, hn, _, hframes⟩ | ⟨q, hnew, _, _, hframes⟩
    · have hmem := List.mem_of_getElem? hpi
      have hnone : ¬ p.contents.isNone = true := by
        have := hx.contents p hmem
        simp [← Option.not_isSome, this]
      rw [← hn, package_mem hx hmem, if_neg hnone]
      split at hframes
      · rename_i hpro
        obtain ⟨hpro, hlt⟩ := (promotes_iff _ _ _ _).mp hpro
        rw [if_pos hlt, if_pos hpro, hframes.2.2]
        rfl
      · rename_i hpro
        rw [hframes.2]
        by_cases hlt : st.top.depth + 1 < proc.limit
        · rw [if_pos hlt, if_neg fun h => hpro ((promotes_iff _ _ _ _).mpr ⟨h, hlt⟩)]
          rfl
        · rw [if_neg hlt]
          rfl
    · have hnotin : pathtorealname tok ∉ Moment.names ⟨st, later⟩ := notMem_names hnew
      rw [package_new hnotin]
      split at hframes
      · rename_i hdesc
        rw [if_pos ((descends_iff _ _).mp hdesc), hframes.2.2]
        rfl
      · rename_i hdesc
        rw [if_neg (mt (descends_iff _ _).mpr hdesc), hframes.2]
        rfl

/-- For any processor that has processed nothing, any options, files and arguments: the
    loop ends; the top frame is one of 256 in every state, a package token pushes at most
    two, and when those do not fit the run fails, for that reason or because the package
    could not be loaded; each real name is found, read and parsed for at most once, and
    becomes public after it was loaded at most once; and in every state the load order has
    each located name once, with as many packages as were allocated. -/
theorem process_bounded (hf : Fresh proc) (args : List S8) :
    (∀ (proc : Processor) (arg : S8), ∃ n, (procMachine mapfile proc).runN n ⟨proc.frame arg, [], proc.pkgs⟩ =
        some ((procMachine mapfile proc).run ⟨proc.frame arg, [], proc.pkgs⟩)) ∧
      (∀ m ∈ processruns mapfile proc args, m.run.below.length ≤ 255) ∧
      ((processruns mapfile proc args).IsChain fun x y =>
        x.run.top.package?.isSome = true → y.run.below.length = x.run.below.length + x.pushes proc) ∧
      (∀ m ∈ processruns mapfile proc args, ∀ tok, m.run.top.package? = some tok →
        255 < m.run.below.length + m.pushes proc →
          processargs mapfile proc args = .error (failmaxrecurse proc.err tok) ∨
            ∃ f, proc.load mapfile (pathtorealname tok) tok = .error f ∧ processargs mapfile proc args = .error f) ∧
      ((processruns mapfile proc args).filterMap Moment.loads).Nodup ∧
      ((processruns mapfile proc args).filterMap Moment.promotes).Nodup ∧
      ∀ before m after, processruns mapfile proc args = before ++ m :: after →
        (m.run.pkgs.list.map Pkg.realname).Nodup ∧
          (∀ n, (∃ p ∈ m.run.pkgs.list, p.realname = n) ↔ n ∈ before.filterMap Moment.located) ∧
          m.run.pkgs.count = m.run.pkgs.list.length ∧
          m.run.pkgs.count = (before.filterMap Moment.allocates).length := by
  have hcoherent : ∀ m ∈ processruns mapfile proc args, Coherent m := processruns_coherent hf args
  refine ⟨fun proc arg => (procMachine mapfile proc).runN_total _, fun m hm => (hcoherent m hm).height, ?_, ?_, ?_,
    promotes_once hf args, ?_⟩
  · exact (processruns_chain mapfile proc args).imp_of_mem_imp fun x y hx _ h => turned_pushes (hcoherent x hx) h
  · intro m hm tok htok hfull
    rcases @procStep_overfull mapfile _ _ (hcoherent m hm) _ htok hfull with h | ⟨f, hload, h⟩
    · exact Or.inl (processruns_error hm h)
    · exact Or.inr ⟨f, hload, processruns_error hm h⟩
  · rw [List.filterMap_congr fun m hm => loads_added (hcoherent m hm)]
    exact added_once hf args
  · intro before m after hsplit
    have hm : m ∈ processruns mapfile proc args := by rw [hsplit]; simp
    refine ⟨(hcoherent m hm).distinct, fun n => ?_, rfl, ?_⟩
    · rw [← names_located hf hsplit, Moment.names, List.mem_map]
    · have hlog := names_log hf hsplit
      rw [List.filterMap_congr fun x _ => allocates_added x, ← hlog]
      exact (List.length_map _).symm

theorem process_bounded_cyclic :
    ((processruns cyclicfiles cyclicproc [S "a", S "b"]).filterMap Moment.loads).Nodup :=
  (process_bounded (fresh_newprocessor _ _ _) [S "a", S "b"]).2.2.2.2.1

/-- A package in a directory of the search path. -/
def nestedfiles (path : S8) : Filemap :=
  if path == S "/p/sub/foo.pc\x00" then .ok (S "Name: foo\nVersion: 1\nDescription:\n") else .notfound

/-- One file is read for two real names: `sub/foo`, and that of its path, `foo`. -/
theorem file_read_twice : ∃ proc', processargs nestedfiles cyclicproc [S "sub/foo", S "/p/sub/foo.pc"] = .ok proc' ∧
    proc'.pkgs.list.map Pkg.realname = [S "sub/foo", S "foo"] ∧ ¬ (proc'.pkgs.list.map Pkg.path).Nodup := by
  obtain ⟨proc', hC, h⟩ := processargs_eval nestedfiles cyclicproc [S "sub/foo", S "/p/sub/foo.pc"]
    (C := fun proc => proc.pkgs.list.map Pkg.realname == [S "sub/foo", S "foo"] &&
      proc.pkgs.list.map Pkg.path == [S "/p/sub/foo.pc", S "/p/sub/foo.pc"]) 20 (by decide +kernel)
  simp only [Bool.and_eq_true, beq_iff_eq] at hC
  refine ⟨proc', h, hC.1, ?_⟩
  rw [hC.2]
  decide

end GnuWindows.PkgConfig
