/-
  GnuWindows.PkgConfig.CleanOutput — runs that keep the path encoding inside.

  The inputs of a run are clean. Encoded bytes come up in the values that `pcfiledir`,
  `prefix` and `pc_top_builddir` are bound to, and spread from there by expansion. What is
  printed is decoded for --cflags and --libs only.

  Proved: what a run has loaded (`processargs_spreads`); a run that prints nothing
  undecoded writes no encoded byte, and one that succeeds only if so
  (`uconfig_clean_stdout`).
-/
import GnuWindows.PkgConfig.Diagnostics
import GnuWindows.PkgConfig.Encoding
import GnuWindows.PkgConfig.ProcessProofs

namespace GnuWindows.PkgConfig

open GnuWindows.Lib.Hoare (Comp Ends Triple)

/-- No byte of the path encoding in the arguments, the environment, the install paths and
    the package files. -/
structure CleanInputs (mapfile : S8 → Filemap) (conf : Config) : Prop where
  args : ∀ arg ∈ conf.args, Clean arg
  envpath : Clean conf.envpath
  fixedpath : Clean conf.fixedpath
  sys_incpath : Clean conf.sys_incpath
  sys_libpath : Clean conf.sys_libpath
  files : ∀ path data, mapfile path = .ok data → Clean data

variable {mapfile : S8 → Filemap} {conf : Config} {st : Optstate}

/-! ## The options -/

theorem s8cut_subset (s : S8) (delim : UInt8) :
    (∀ c ∈ (s8cut s delim).head, c ∈ s) ∧ ∀ c ∈ (s8cut s delim).tail, c ∈ s := by
  simp only [s8cut]
  split
  · exact ⟨fun _ h => h, fun _ h => List.mem_of_mem_drop h⟩
  · exact ⟨fun _ h => List.mem_of_mem_take h, fun _ h => List.mem_of_mem_drop h⟩

theorem splitpath_subset {path dir : S8} {delim : UInt8} (h : dir ∈ splitpath path delim) : ∀ c ∈ dir, c ∈ path := by
  induction path using splitpath.induct delim with
  | case1 => rw [splitpath, dif_pos rfl] at h; cases h
  | case2 path hp c ih =>
    rw [splitpath, dif_neg hp] at h
    rcases List.mem_append.mp h with h | h
    · split at h
      · rw [List.mem_singleton.mp h]; exact (s8cut_subset path delim).1
      · cases h
    · exact fun b hb => (s8cut_subset path delim).2 b (ih h b hb)

theorem optresult_value {arg v : S8} (h : (optresult arg).value = some v) : ∀ c ∈ v, c ∈ arg := by
  simp only [optresult] at h
  split at h
  · cases h
    exact fun c hc => List.mem_of_mem_drop ((s8cut_subset _ _).2 c hc)
  · cases h

/-- Arguments and values of options are, or are part of, elements of the vector. -/
theorem parts_subset (args : List S8) :
    (∀ v ∈ (parts args).filterMap Part.positional?, v ∈ args) ∧
      ∀ v ∈ (parts args).filterMap Part.value?, ∃ arg ∈ args, ∀ c ∈ v, c ∈ arg := by
  induction args using parts.induct with
  | case1 => simp [parts]
  | case2 arg args hplain ih =>
    rw [parts, if_pos hplain]
    refine ⟨?_, ?_⟩
    · intro v hv
      rcases List.mem_cons.mp hv with rfl | hv
      · exact List.mem_cons_self
      · exact List.mem_cons_of_mem _ (ih.1 v hv)
    · intro v hv
      obtain ⟨a, ha, hc⟩ := ih.2 v hv
      exact ⟨a, List.mem_cons_of_mem _ ha, hc⟩
  | case3 arg args hplain harg =>
    rw [parts, if_neg hplain, if_pos harg]
    refine ⟨?_, ?_⟩
    · intro v hv
      simp only [List.filterMap_map, List.mem_filterMap, Function.comp_apply, Part.positional?, Option.some.injEq] at hv
      obtain ⟨a, ha, rfl⟩ := hv
      exact List.mem_cons_of_mem _ ha
    · intro v hv
      simp [Part.value?] at hv
  | case4 arg args hplain harg ih =>
    rw [parts, if_neg hplain, if_neg harg]
    have hrest : ∀ v ∈ (optvalue arg args).2, v ∈ args := by
      intro v hv
      unfold optvalue at hv
      split at hv
      · exact List.mem_of_mem_tail hv
      · exact hv
    refine ⟨fun v hv => List.mem_cons_of_mem _ (hrest v (ih.1 v hv)), ?_⟩
    intro v hv
    have hv : (optvalue arg args).1 = some v ∨ v ∈ (parts (optvalue arg args).2).filterMap Part.value? := by
      rw [List.filterMap_cons] at hv
      simp only [Part.value?] at hv
      split at hv
      · exact Or.inr hv
      · rename_i b hb
        rcases List.mem_cons.mp hv with rfl | hv
        · exact Or.inl hb
        · exact Or.inr hv
    rcases hv with hv | hv
    · unfold optvalue at hv
      split at hv
      · exact ⟨v, List.mem_cons_of_mem _ (List.mem_of_mem_head? hv), fun _ hc => hc⟩
      · exact ⟨arg, List.mem_cons_self, optresult_value hv⟩
    · obtain ⟨a, ha, hc⟩ := ih.2 v hv
      exact ⟨a, List.mem_cons_of_mem _ (hrest a ha), hc⟩

/-- What the options leave behind, from clean inputs. -/
structure CleanOptions (st : Optstate) : Prop where
  args : ∀ arg ∈ st.args, Clean arg
  global : st.proc.global.All Tame
  search : ∀ dir ∈ st.proc.search.list, Clean dir
  argdelim : encoded st.argdelim = false
  override : st.override_op ≠ .ERR → errbuf st = .null

theorem newglobal_tame (hin : CleanInputs mapfile conf) : (newglobal conf).All Tame := by
  refine (((((Env.all_empty _).bind _ (Or.inl hin.fixedpath)).bind _ (Or.inl hin.sys_incpath)).bind _
    (Or.inl hin.sys_libpath)).bind _ (Or.inl (by decide))).bind _ ?_
  split
  · exact tame_s8pathencode _
  · exact Or.inl (by decide)

theorem Parsed.clean (hin : CleanInputs mapfile conf) (h : Parsed conf st) : CleanOptions st := by
  have happ := h.applied
  have hvalue : ∀ v ∈ (parts conf.args).filterMap Part.value?, Clean v := by
    intro v hv
    obtain ⟨arg, harg, hc⟩ := (parts_subset conf.args).2 v hv
    exact (hin.args arg harg).of_subset hc
  refine ⟨?_, ?_, ?_, ?_, ?_⟩
  · intro arg harg
    rw [happ.args] at harg
    exact hin.args arg ((parts_subset conf.args).1 arg harg)
  · exact happ.global (newglobal_tame hin) fun v hv => Or.inl ((hvalue v hv).of_subset (s8cut_subset v 0x3d).2)
  · intro dir hdir
    rcases happ.search dir hdir with hd | ⟨v, hv, hd⟩
    · rcases List.mem_append.mp hd with hd | hd
      · exact hin.envpath.of_subset (splitpath_subset (List.mem_append.mp hd |>.resolve_left (by simp [newsearch])))
      · exact hin.fixedpath.of_subset (splitpath_subset hd)
    · exact (hvalue v hv).of_subset (splitpath_subset hd)
  · rcases happ.argdelim with he | he <;> rw [he] <;> rfl
  · intro hop
    have := happ.override (fun hne => absurd rfl hne) hop
    rw [errbuf, if_pos this]

/-! ## The files -/

theorem skiplead_subset (p : S8) : ∀ c ∈ skiplead p, c ∈ p := by
  induction p using skiplead.induct with
  | case1 => simp [skiplead]
  | case2 c p hc r hr ih =>
    rw [skiplead, if_pos hc, if_pos hr]
    exact fun b hb => List.mem_of_mem_drop (ih b hb)
  | case3 c p hc r hr => rw [skiplead, if_pos hc, if_neg hr]; exact fun _ h => h
  | case4 c p hc h => rw [skiplead, if_neg hc, if_pos h]; exact fun _ h => h
  | case5 c p hc h ih =>
    rw [skiplead, if_neg hc, if_neg h]
    exact fun b hb => List.mem_cons_of_mem _ (ih b hb)

theorem stripescapes_subset (s : S8) : ∀ c ∈ stripescapes s, c ∈ s := by
  induction s using stripescapes.induct with
  | case1 => simp [stripescapes]
  | case2 b t hb r hr ih =>
    rw [stripescapes, if_pos hb, if_pos hr]
    exact fun c hc => List.mem_of_mem_drop (ih c hc)
  | case3 b t hb r hr hh ih =>
    rw [stripescapes, if_pos hb, if_neg hr, if_pos hh]
    exact fun c hc => List.mem_cons_of_mem _ (ih c hc)
  | case4 b t hb r hr hh ih =>
    rw [stripescapes, if_pos hb, if_neg hr, if_neg hh]
    exact List.cons_subset_cons _ ih
  | case5 b t hb ih =>
    rw [stripescapes, if_neg hb]
    exact List.cons_subset_cons _ ih

theorem scanfield_subset (p : S8) : ∀ c ∈ (scanfield p).2, c ∈ p := by
  have hspan : ∀ fin : S8, ∀ c ∈ span (skiplead p) fin, c ∈ p :=
    fun fin c hc => skiplead_subset p c (List.mem_of_mem_take hc)
  simp only [scanfield]
  split
  · exact fun c hc => hspan _ c (stripescapes_subset _ c hc)
  · exact hspan _

theorem skipline_suffix (p : S8) : skipline p <:+ p := by
  induction p with
  | nil => exact List.suffix_refl _
  | cons c p ih =>
    rw [skipline]
    split
    · exact List.suffix_cons _ _
    · exact ih.trans (List.suffix_cons _ _)

theorem scanname_suffix (p fin : S8) (c : UInt8) : (scanname p fin c).2.1 <:+ p := by
  induction p generalizing fin c with
  | nil => exact List.suffix_refl _
  | cons d p ih =>
    rw [scanname]
    split
    · exact List.suffix_cons _ _
    · exact (ih _ _).trans (List.suffix_cons _ _)

theorem reftext_suffix (pre p : S8) : (reftext pre p).2 <:+ p := by
  induction p generalizing pre with
  | nil => exact List.suffix_refl _
  | cons c p ih =>
    rw [reftext]
    split
    · exact List.suffix_refl _
    · exact (ih _).trans (List.suffix_cons _ _)

theorem entries_body (p : S8) : ∀ e ∈ entries p, e.body <:+ p := by
  induction p using entries.induct with
  | case1 => simp [entries]
  | case2 p hp q hq ih =>
    rw [entries, dif_neg hp, if_pos hq]
    exact fun e he => (ih e he).trans ((skipline_suffix q).trans (List.dropWhile_suffix _))
  | case3 p hp q hq line hl ih =>
    have hline : line.2.2 <:+ p := (scanname_suffix q q 0).trans (List.dropWhile_suffix _)
    rw [entries, dif_neg hp, if_neg hq]
    simp only
    rw [if_pos hl]
    intro e he
    rcases List.mem_cons.mp he with rfl | he
    · exact hline
    · refine (ih e he).trans (List.IsSuffix.trans ?_ ((reftext_suffix [] line.2.2).trans hline))
      unfold nextline
      split
      · exact skipline_suffix _
      · exact List.suffix_refl _
  | case4 p hp q hq line hl ih =>
    rw [entries, dif_neg hp, if_neg hq]
    simp only
    rw [if_neg hl]
    exact fun e he => (ih e he).trans ((scanname_suffix q q 0).trans (List.dropWhile_suffix _))

theorem assign_env {K : S8 → Prop} {pkg pkg' : Pkg} {es : List Entry} (h : assign pkg es = .ok pkg')
    (henv : pkg.env.All K) (hes : ∀ e ∈ es, K (scanfield e.body).2) : pkg'.env.All K := by
  induction es generalizing pkg with
  | nil => cases h; exact henv
  | cons e es ih =>
    have htail : ∀ e ∈ es, K (scanfield e.body).2 := fun e he => hes e (List.mem_cons_of_mem _ he)
    rw [assign] at h
    split at h
    · split at h
      · cases h
      · exact ih h (henv.bind _ (hes e List.mem_cons_self)) htail
    · split at h
      · split at h
        · cases h
        · exact ih h henv htail
      · exact ih h henv htail

/-- The values a file binds are parts of it. -/
theorem parsepackage_env {src : S8} {pkg : Pkg} (h : parsepackage src = .ok pkg) (hsrc : Clean src) :
    pkg.env.All Tame := by
  rw [parsepackage_entries] at h
  refine assign_env h (Env.all_empty _) fun e he => Or.inl (hsrc.of_subset ?_)
  intro c hc
  exact (entries_body src e he).subset (scanfield_subset _ c hc)

/-! ## Loading a package -/

variable {err : Errbuf}

theorem readpackage_clean (err : Errbuf) (hin : CleanInputs mapfile conf) (path realname : S8) :
    Ends (readpackage mapfile err path realname) (fun contents => ∀ s, contents = some s → Clean s) fun _ => True := by
  unfold readpackage
  split
  · exact Ends.ok fun s hs => by cases hs; decide
  · split
    · exact Ends.ok fun s hs => by cases hs
    · exact Ends.error trivial
    · rename_i data hdata
      exact Ends.ok fun s hs => by cases hs; exact hin.files _ _ hdata

/-- A path that is opened is made of the search path and the name. -/
theorem searchdirs_clean (hin : CleanInputs mapfile conf) (realname : S8) (dirs : List S8) (path : S8) :
    Ends (searchdirs mapfile err realname dirs path)
      (fun found => ∀ s, found.2 = some s →
        Clean s ∧ ((∀ dir ∈ dirs, Clean dir) → Clean realname → Clean found.1)) fun _ => True := by
  induction dirs generalizing path with
  | nil => exact Ends.ok fun s hs => by cases hs
  | cons dir dirs ih =>
    have hread := readpackage_clean err hin (buildpath dir realname) realname
    simp only [searchdirs]
    split
    · exact Ends.error trivial
    · rename_i contents hr
      refine Ends.ok fun s hs => ⟨hread.of_ok hr s hs, ?_⟩
      intro hdirs hname
      have hpath : Clean (buildpath dir realname) := by
        unfold buildpath
        have hdir : Clean dir := hdirs dir List.mem_cons_self
        exact clean_append.mpr ⟨clean_append.mpr ⟨clean_append.mpr ⟨hdir, by decide⟩, hname⟩, by decide⟩
      exact hpath.of_subset fun c hc => (List.dropLast_subset _) hc
    · exact (ih _).mono (fun found h s hs =>
        ⟨(h s hs).1, fun hdirs hname => (h s hs).2 (fun d hd => hdirs d (List.mem_cons_of_mem _ hd)) hname⟩)
        fun _ _ => trivial

theorem pathtorealname_subset (tok : S8) : ∀ c ∈ pathtorealname tok, c ∈ tok := by
  unfold pathtorealname
  split
  · exact fun _ h => h
  · exact fun c hc => List.mem_of_mem_drop (List.mem_of_mem_take hc)

/-- The path and the contents found for a token. -/
def CleanFound (dirs : Search) (tok : S8) (found : S8 × S8 × S8) : Prop :=
  Clean found.2.2 ∧ ((∀ dir ∈ dirs.list, Clean dir) → Clean tok → Clean found.1)

theorem openpackage_clean (hin : CleanInputs mapfile conf) (dirs : Search) (tok : S8) :
    Ends (openpackage mapfile err dirs tok) (CleanFound dirs tok) fun _ => True := by
  unfold openpackage
  extract_lets rest
  have hrest : ∀ first, (∀ s, first = some s → Clean s) → Ends (rest first) (CleanFound dirs tok) fun _ => True := by
    intro first hfirst
    cases first with
    | some contents => exact Ends.ok ⟨hfirst _ rfl, fun _ htok => htok⟩
    | none =>
      apply (searchdirs_clean hin tok dirs.list []).bind
      intro found hfound
      split
      · rename_i contents hc
        exact Ends.ok (hfound contents hc)
      · exact Ends.error trivial
  split
  · exact (readpackage_clean _ hin _ _).bind hrest
  · exact Ends.bind (Ends.ok (Q := fun first => ∀ s, first = some s → Clean s) fun s hs => by cases hs) hrest

/-- What is loaded for a token. -/
structure CleanPkg (dirs : Search) (tok : S8) (p : Pkg) : Prop where
  env : p.env.All Tame
  path : (∀ dir ∈ dirs.list, Clean dir) → Clean tok → Clean p.path

theorem findpackage_clean (hin : CleanInputs mapfile conf) (dirs : Search) (tok : S8) :
    Ends (findpackage mapfile err dirs tok) (CleanPkg dirs tok) fun _ => True := by
  unfold findpackage
  apply (openpackage_clean hin dirs tok).bind
  intro found hfound
  obtain ⟨path, realname, contents⟩ := found
  simp only
  split
  · exact Ends.error trivial
  · exact Ends.error trivial
  · rename_i pkg hparse
    split
    · exact Ends.error trivial
    · exact Ends.ok ⟨(parsepackage_env hparse hfound.1).bind _ (tame_s8pathencode _), hfound.2⟩

theorem setprefix_clean {dirs : Search} {tok : S8} {p : Pkg} (h : CleanPkg dirs tok p) :
    CleanPkg dirs tok ( setprefix p) := by
  simp only [ setprefix]
  split
  · exact ⟨h.env.bind _ (tame_s8pathencode _), h.path⟩
  · exact h

theorem expandmerge_clean {dirs : Search} {tok : S8} {global : Env} {base update : Pkg} (h : CleanPkg dirs tok update) :
    Ends (expandmerge err global base update) (CleanPkg dirs tok) fun _ => True := by
  refine Ends.foldlM (?_) ⟨h.env, h.path⟩
  intro i _ p hp
  simp only [expandfield]
  split
  · exact Ends.error trivial
  · exact Ends.ok ⟨hp.env, hp.path⟩

theorem loadpackage_clean (hin : CleanInputs mapfile conf) (global : Env) (dirs : Search) (define : Bool)
    (base : Pkg) (tok : S8) :
    Ends (loadpackage mapfile err global dirs define base tok) (CleanPkg dirs tok) fun _ => True := by
  refine (findpackage_clean hin dirs tok).bind fun p hp => expandmerge_clean ?_
  split
  · exact setprefix_clean hp
  · exact hp

/-! ## Processing the arguments -/

/-- The lists of required packages, as they were expanded, are clean. -/
def CleanRequires (l : List Pkg) : Prop := ∀ p ∈ l, Clean (bytes p.requires) ∧ Clean (bytes p.requiresprivate)

/-- Encoded bytes in the packages, and in what the frames still read: the values of a
    package are tame, and its name and its path are clean unless a list is not. -/
structure Spread (l : List Pkg) (frames : List Procstate) : Prop where
  contents : ∀ p ∈ l, p.contents.isSome = true
  env : ∀ p ∈ l, p.env.All Tame
  clean : CleanRequires l → (∀ s ∈ frames, Clean s.arg) ∧ ∀ p ∈ l, Clean p.realname ∧ Clean p.path

variable {proc : Processor}

/-- The frames are others, with nothing more to read. -/
theorem Spread.frames {l : List Pkg} {frames frames' : List Procstate} (h : Spread l frames)
    (hf : ∀ s ∈ frames', ∃ s' ∈ frames, ∀ c ∈ s.arg, c ∈ s'.arg) : Spread l frames' where
  contents := h.contents
  env := h.env
  clean hl := ⟨fun s hs => by
    obtain ⟨s', hs', hc⟩ := hf s hs
    exact ((h.clean hl).1 s' hs').of_subset hc, (h.clean hl).2⟩

theorem nexttoken_subset (s : S8) : (∀ c ∈ (nexttoken s).1, c ∈ s) ∧ ∀ c ∈ (nexttoken s).2, c ∈ s :=
  ⟨fun _ h => (List.dropWhile_sublist _).subset ((List.takeWhile_sublist _).subset h),
    fun _ h => (List.dropWhile_sublist _).subset ((List.dropWhile_sublist _).subset h)⟩

/-- The top frame is read on. -/
theorem Spread.retop {l : List Pkg} {s s' : Procstate} {below : List Procstate} (h : Spread l (s :: below))
    (hs : s'.arg = (nexttoken s.arg).2) : Spread l (s' :: below) :=
  h.frames fun x hx => by
    rcases List.mem_cons.mp hx with rfl | hx
    · exact ⟨s, List.mem_cons_self, by rw [hs]; exact (nexttoken_subset s.arg).2⟩
    · exact ⟨x, List.mem_cons_of_mem _ hx, fun _ hc => hc⟩

/-- Flags grow. -/
theorem Spread.addflags {l : List Pkg} {frames : List Procstate} (h : Spread l frames) (i : Nat) (flags : Flags) :
    Spread (l.modify i (addflags flags)) frames := by
  have hmem : ∀ q ∈ l.modify i (GnuWindows.PkgConfig.addflags flags), ∃ p ∈ l, p.Le q := by
    intro q hq
    obtain ⟨j, hj⟩ := List.mem_iff_getElem?.mp hq
    obtain ⟨p, hp, hle⟩ := le_addflags hj
    exact ⟨p, List.mem_of_getElem? hp, hle⟩
  refine ⟨?_, ?_, ?_⟩
  · intro q hq
    obtain ⟨p, hp, hle⟩ := hmem q hq
    rw [hle.1]
    exact h.contents p hp
  · intro q hq
    obtain ⟨p, hp, hle⟩ := hmem q hq
    rw [hle.1]
    exact h.env p hp
  · intro hl
    have hl' : CleanRequires l := by
      intro p hp
      obtain ⟨q, hq, hle⟩ := (grows_addflags l i flags).mem hp
      rw [← hle.requires, ← hle.requiresprivate]
      exact hl q hq
    refine ⟨(h.clean hl').1, ?_⟩
    intro q hq
    obtain ⟨p, hp, hle⟩ := hmem q hq
    rw [hle.1]
    exact (h.clean hl').2 p hp

theorem procpackage_spread (hin : CleanInputs mapfile conf) (hsearch : ∀ dir ∈ proc.search.list, Clean dir)
    {st st' : Procrun} (h : Spread st.pkgs.list (st.top :: st.below))
    (hp : procpackage mapfile proc st (nexttoken st.top.arg).1 (nexttoken st.top.arg).2 = .ok st') :
    Spread st'.pkgs.list (st'.top :: st'.below) := by
  have hafter : ∀ i, Spread st.pkgs.list (st.top.after (nexttoken st.top.arg).2 i :: st.below) := fun i => h.retop rfl
  rcases procpackage_cases hp h.contents with ⟨i, p, hi, -, hlist, hframes⟩ | ⟨q, -, hload, hlist, hframes⟩
  · have hgrown := (hafter i).addflags i st.top.flags
    rw [hlist]
    split at hframes
    · obtain ⟨-, htop, hbelow⟩ := hframes
      rw [htop, hbelow]
      refine ⟨hgrown.contents, hgrown.env, fun hl => ⟨?_, (hgrown.clean hl).2⟩⟩
      intro s hs
      rcases List.mem_cons.mp hs with rfl | hs
      · obtain ⟨q, hq, hle⟩ := (grows_addflags st.pkgs.list i st.top.flags).mem (List.mem_of_getElem? hi)
        exact hle.requires ▸ (hl q hq).1
      · exact (hgrown.clean hl).1 s hs
    · rw [hframes.1, hframes.2]
      exact hgrown
  · have hq := (loadpackage_clean hin _ _ _ _ _).of_ok hload
    obtain ⟨hname, hcontents, -⟩ := (loadpackage_rest _ _ _ _ _ _).of_ok hload
    rw [hlist]
    have hadded : Spread (st.pkgs.list ++ [addflags st.top.flags q])
        (st.top.after (nexttoken st.top.arg).2 st.pkgs.list.length :: st.below) := by
      have hold := hafter st.pkgs.list.length
      refine ⟨?_, ?_, ?_⟩
      · intro p hp
        rcases List.mem_append.mp hp with hp | hp
        · exact h.contents p hp
        · rw [List.mem_singleton.mp hp]; exact hcontents
      · intro p hp
        rcases List.mem_append.mp hp with hp | hp
        · exact h.env p hp
        · rw [List.mem_singleton.mp hp]; exact hq.env
      · intro hl
        have hl' : CleanRequires st.pkgs.list := fun p hp => hl p (List.mem_append_left _ hp)
        refine ⟨(hold.clean hl').1, ?_⟩
        intro p hp
        have htok : Clean (nexttoken st.top.arg).1 :=
          ((h.clean hl').1 st.top List.mem_cons_self).of_subset (nexttoken_subset _).1
        rcases List.mem_append.mp hp with hp | hp
        · exact (h.clean hl').2 p hp
        · rw [List.mem_singleton.mp hp]
          refine ⟨?_, hq.path hsearch htok⟩
          exact hname ▸ htok.of_subset (pathtorealname_subset _)
    split at hframes
    · obtain ⟨-, htop, hbelow⟩ := hframes
      rw [htop, hbelow]
      refine ⟨hadded.contents, hadded.env, fun hl => ⟨?_, (hadded.clean hl).2⟩⟩
      intro s hs
      have hreq := hl (addflags st.top.flags q) (List.mem_append_right _ List.mem_cons_self)
      rcases List.mem_cons.mp hs with rfl | hs
      · exact hreq.1
      · rcases List.mem_cons.mp hs with rfl | hs
        · exact hreq.2
        · exact (hadded.clean hl).1 s hs
    · rw [hframes.1, hframes.2]
      exact hadded

theorem procStep_spread (hin : CleanInputs mapfile conf) (hsearch : ∀ dir ∈ proc.search.list, Clean dir)
    {st st' : Procrun} (h : Spread st.pkgs.list (st.top :: st.below)) (hs : procStep mapfile proc st = .go st') :
    Spread st'.pkgs.list (st'.top :: st'.below) := by
  rcases procStep_cases hs with ⟨_, _, hbelow, hpkgs⟩ | ⟨_, _, _, rfl⟩ | ⟨_, _, _, i, _, rfl⟩ | ⟨_, _, _, hp⟩
  · rw [hpkgs, ← hbelow]
    exact h.frames fun x hx => ⟨x, List.mem_cons_of_mem _ hx, fun _ hc => hc⟩
  · exact h.retop rfl
  · exact h.retop rfl
  · exact procpackage_spread hin hsearch h hp

/-- Between arguments there are no frames. -/
theorem process_spread (hin : CleanInputs mapfile conf) (hsearch : ∀ dir ∈ proc.search.list, Clean dir)
    (h : Spread proc.pkgs.list []) {arg : S8} (harg : Clean arg) {proc' : Processor}
    (hp : process mapfile proc arg = .ok proc') : Spread proc'.pkgs.list [] := by
  have hstart : Spread proc.pkgs.list [proc.frame arg] := by
    refine ⟨h.contents, h.env, fun hl => ⟨?_, (h.clean hl).2⟩⟩
    intro s hs
    rw [List.mem_singleton.mp hs]
    exact harg
  have hrun := (procMachine mapfile proc).run_inv (I := fun st => Spread st.pkgs.list (st.top :: st.below))
    (Q := fun r => ∀ e, r = .ok e → Spread e.pkgs.list [])
    (fun st st' hi hs => procStep_spread hin hsearch hi hs) ?_ ⟨proc.frame arg, [], proc.pkgs⟩ hstart
  · unfold process at hp
    split at hp
    · cases hp
    · rename_i e he
      cases hp
      exact hrun e he
  · intro st r hi hs e he
    subst he
    obtain ⟨-, -, rfl⟩ := procStep_ok hs
    exact hi.frames fun s hs => by cases hs

/-- The packages a run has loaded, and that the rest of the processor is as it was. -/
theorem processargs_spreads (hin : CleanInputs mapfile conf) {args : List S8} {proc' : Processor}
    (hsearch : ∀ dir ∈ proc.search.list, Clean dir) (hargs : ∀ arg ∈ args, Clean arg) (h : Spread proc.pkgs.list [])
    (hp : processargs mapfile proc args = .ok proc') : Spread proc'.pkgs.list [] ∧ proc'.global = proc.global := by
  induction args generalizing proc with
  | nil => cases hp; exact ⟨h, rfl⟩
  | cons arg args ih =>
    rw [processargs, List.foldlM_cons] at hp
    cases h1 : process mapfile proc arg with
    | error f => rw [h1] at hp; cases hp
    | ok p1 =>
      rw [h1] at hp
      have hc := process_config h1
      have hspread := process_spread hin hsearch h (hargs arg List.mem_cons_self) h1
      have hsearch1 : ∀ dir ∈ p1.search.list, Clean dir := by rw [hc]; exact hsearch
      have hg : p1.global = proc.global := by rw [hc]
      obtain ⟨hs, hg'⟩ := ih hsearch1 (fun a ha => hargs a (List.mem_cons_of_mem _ ha)) hspread hp
      exact ⟨hs, hg'.trans hg⟩

/-! ## Printing -/

/-- What is printed undecoded is clean: the versions, and all that the expansion of the
    variable reads. -/
structure PrintsClean (st : Optstate) (proc : Processor) : Prop where
  modversion : st.modversion = true → ∀ p ∈ proc.pkgs.list, p.flags.pkgDirect = true → Clean (bytes p.version)
  variable_ : ∀ name, st.variable_ = some name → ∀ p ∈ proc.pkgs.list, p.flags.pkgDirect = true →
    ∀ value, lookup proc.global p.env name = some value → ∀ v, Reached (lookup proc.global p.env) value v → Clean v

def Cleanbuf (out : U8buf) : Prop := Clean out.total

/-- Keeps the buffer clean, and fails on stdout with a clean message only. -/
def Cleanly {α : Type} (x : Uconfig α) (Q : α → Prop) : Prop :=
  Triple Cleanbuf x (fun a out => Q a ∧ Cleanbuf out) fun f out => Cleanbuf out ∧ (f.err = .stdout → Clean f.text)

theorem Cleanly.pure {α : Type} {a : α} {Q : α → Prop} (h : Q a) : Cleanly (pure a : Uconfig α) Q :=
  Triple.pure fun _ hs => ⟨h, hs⟩

theorem Cleanly.print {s : S8} (h : Clean s) : Cleanly (print s) fun _ => True :=
  Triple.step fun out hs => ⟨trivial, by rw [Cleanbuf, total_prints8]; exact clean_append.mpr ⟨hs, h⟩⟩

theorem Cleanly.bind {α β : Type} {x : Uconfig α} {f : α → Uconfig β} {Q : α → Prop} {R : β → Prop} (hx : Cleanly x Q)
    (hf : ∀ a, Q a → Cleanly (f a) R) : Cleanly (x >>= f) R :=
  Triple.bind hx fun a s hs => hf a hs.1 s hs.2

theorem Cleanly.forM {l : List Pkg} {f : Pkg → Uconfig Unit} (h : ∀ p ∈ l, Cleanly (f p) fun _ => True) :
    Cleanly (l.forM f) fun _ => True :=
  (Triple.forM fun p hp => (h p hp).mono (fun _ hs => hs) (fun _ _ hs => hs.2) fun _ _ hs => hs).mono (fun _ hs => hs)
    (fun _ _ hs => ⟨trivial, hs⟩) fun _ _ hs => hs

theorem Cleanly.ofExcept {α : Type} {r : Except Fail α} {Q : α → Prop}
    (h : Ends r Q fun f => f.err = .stdout → Clean f.text) : Cleanly (Comp.ofExcept r) Q :=
  Triple.ofExcept h (fun _ _ ha hs => ⟨ha, hs⟩) fun _ _ hf hs => ⟨hs, hf⟩

theorem clean_newline : Clean (S "\n") := by decide

/-- Names and paths that messages on stdout may hold. -/
def CleanNames (st : Optstate) (l : List Pkg) : Prop :=
  errbuf st = .stdout → ∀ p ∈ l, Clean p.realname ∧ Clean p.path

theorem printmodversion_clean {l : List Pkg}
    (h : st.modversion = true → ∀ p ∈ l, p.flags.pkgDirect = true → Clean (bytes p.version)) :
    Cleanly (printmodversion st l) fun _ => True := by
  unfold printmodversion
  split
  · rename_i hm
    refine .forM ?_
    intro p hp
    split
    · rename_i hd
      exact (Cleanly.print (h hm p hp hd)).bind fun _ _ => .print clean_newline
    · exact .pure trivial
  · exact .pure trivial

theorem printexpanded_clean (err : Errbuf) {global : Env} {p : Pkg} {value : S8}
    (hpath : err = .stdout → Clean p.path) (h : ∀ v, Reached (lookup global p.env) value v → Clean v) :
    Cleanly (printexpanded err global p value) fun _ => True := by
  obtain ⟨hout, hfail⟩ := expand_clean err h
  apply (Cleanly.print hout).bind
  intro _ _
  split
  · rename_i f hf
    exact Triple.throw fun _ hs => ⟨hs, fun hstd => hfail f hf (hpath ((expand_fail hf).symm.trans hstd))⟩
  · exact .pure trivial

theorem printvariable_clean {l : List Pkg} {global : Env} (hnames : CleanNames st l)
    (h : ∀ name, st.variable_ = some name → ∀ p ∈ l, p.flags.pkgDirect = true → ∀ value,
      lookup global p.env name = some value → ∀ v, Reached (lookup global p.env) value v → Clean v) :
    Cleanly (printvariable st global l) fun _ => True := by
  unfold printvariable
  split
  · exact .pure trivial
  · rename_i name hname
    refine .forM ?_
    intro p hp
    split
    · rename_i hd
      split
      · rename_i value hv
        have hvalue := printexpanded_clean (errbuf st) (fun hstd => (hnames hstd p hp).2)
          (h name hname p hp hd value hv)
        exact hvalue.bind fun _ _ => .print clean_newline
      · exact .pure trivial
    · exact .pure trivial

/-- A message about a field has the name of its package. -/
theorem fields_clean {l : List Pkg} {f : Fieldwriter → Pkg → Except Fail Fieldwriter} {w : Fieldwriter}
    (hnames : CleanNames st l) (hw : CleanWriter w)
    (h : ∀ w p, CleanWriter w → Ends (f w p) CleanWriter fun e => e = failquote (errbuf st) p) :
    Ends (l.foldlM f w) CleanWriter fun e => e.err = .stdout → Clean e.text := by
  refine Ends.foldlM (fun p hp w hw => (h w p hw).mono (fun _ hw => hw) ?_) hw
  intro e he hstd
  subst he
  have hname := (hnames hstd p hp).1
  simp only [failquote, diagnose, clean_append]
  exact ⟨by decide, ⟨by decide, hname⟩, by decide⟩

theorem printfields_clean {fields : Except Fail Fieldwriter}
    (h : Ends fields CleanWriter fun e => e.err = .stdout → Clean e.text) (argcount : Nat) :
    Cleanly (printfields fields argcount) fun _ => True :=
  (Cleanly.ofExcept h).bind fun _ hw => (Cleanly.print (writeargs_clean hw argcount)).bind fun _ _ => .pure trivial

theorem appendlibs_clean {err : Errbuf} (static_ : Bool) (w : Fieldwriter) (p : Pkg) (hw : CleanWriter w) :
    Ends (appendlibs err static_ w p) CleanWriter fun e => e = failquote err p := by
  unfold appendlibs
  split
  · exact (appendfield_clean hw p _).bind fun w hw => appendfield_clean hw p _
  · split
    · exact appendfield_clean hw p _
    · exact Ends.ok hw

theorem newfieldwriter_clean (f : Filter) (msvc : Bool) {delim : UInt8} (h : encoded delim = false) :
    CleanWriter { newfieldwriter f with delim := delim, msvc := msvc } where
  args arg harg := by cases harg
  delim := h

theorem printcflags_clean {l : List Pkg} (hnames : CleanNames st l) (hdelim : encoded st.argdelim = false)
    (argcount : Nat) : Cleanly (printcflags conf st l argcount) fun _ => True := by
  have hnew : CleanWriter (cflagswriter conf st) := by
    unfold cflagswriter
    split
    · exact newfieldwriter_clean _ _ hdelim
    · exact insertsyspath_clean (newfieldwriter_clean _ _ hdelim) _ _ _
  unfold printcflags
  split
  · exact printfields_clean (fields_clean hnames hnew fun w p hw => appendfield_clean hw p _) argcount
  · exact .pure trivial

theorem printlibs_clean {l : List Pkg} (hnames : CleanNames st l) (hdelim : encoded st.argdelim = false)
    (argcount : Nat) : Cleanly (printlibs conf st l argcount) fun _ => True := by
  have hnew : CleanWriter (libswriter conf st) := by
    unfold libswriter
    split
    · exact newfieldwriter_clean _ _ hdelim
    · exact insertsyspath_clean (newfieldwriter_clean _ _ hdelim) _ _ _
  unfold printlibs
  split
  · exact printfields_clean (fields_clean hnames hnew fun w p hw => appendlibs_clean _ w p hw) argcount
  · exact .pure trivial

theorem report_clean {proc : Processor} (hdelim : encoded st.argdelim = false) (hnames : CleanNames st proc.pkgs.list)
    (h : PrintsClean st proc) : Cleanly (report conf st proc) fun _ => True := by
  unfold report
  refine (printmodversion_clean h.modversion).bind fun _ _ => (printvariable_clean hnames h.variable_).bind fun _ _ =>
    (printcflags_clean hnames hdelim _).bind fun _ _ => (printlibs_clean hnames hdelim _).bind fun _ _ => ?_
  refine Cleanly.bind (Q := fun _ => True) ?_ fun _ _ => Triple.step fun out hs => ⟨trivial, ?_⟩
  · unfold printnewline
    split
    · exact .print clean_newline
    · exact .pure trivial
  · rw [Cleanbuf, (total_flush out).1]
    exact hs

/-- A message about the arguments as a whole has no name in it, and one about a version
    asked for on the command line is not printed. -/
theorem checkall_clean (hopt : CleanOptions st) (proc : Processor) :
    Ends (checkall st proc) (fun _ => True) fun f => f.err = .stdout → Clean f.text := by
  unfold checkall
  refine Ends.bind (Q := fun _ => True) ?_ fun _ _ => Ends.bind (Q := fun _ => True) ?_ fun _ _ => ?_
  · unfold endprocessor
    split
    · apply Ends.error
      intro _
      simp only [procfail, diagnose, clean_append]
      refine ⟨by decide, ⟨⟨by decide, ?_⟩, clean_nil⟩, by decide⟩
      cases proc.op <;> decide
    · exact Ends.ok trivial
  · unfold checkcount
    split
    · apply Ends.error
      intro _
      simp only [failnopackage, diagnose, clean_append]
      exact ⟨by decide, by decide⟩
    · exact Ends.ok trivial
  · by_cases hop : st.override_op = .ERR
    · rw [checkversions, if_pos hop]; exact Ends.ok trivial
    · have hon := checkversions_on (errbuf st) st.override_op st.override_version proc.pkgs.list
      exact hon.mono (fun _ _ => trivial) fun f hf hstd => by rw [hf, hopt.override hop] at hstd; cases hstd

theorem conclude_clean (conf : Config) {proc : Processor} (hopt : CleanOptions st)
    (hnames : CleanNames st proc.pkgs.list) (h : PrintsClean st proc) : Cleanly (conclude conf st proc) fun _ => True :=
  (Cleanly.ofExcept (checkall_clean hopt proc)).bind fun _ _ => report_clean hopt.argdelim hnames h

/-! ## What a run that succeeds has printed -/

def Printed (s : S8) (out : U8buf) : Prop := ∀ c ∈ s, c ∈ out.total

/-- Nothing that was printed is lost. -/
def Keeps {α : Type} (x : Uconfig α) : Prop := ∀ s, Triple (Printed s) x (fun _ => Printed s) fun _ _ => True

theorem Keeps.pure {α : Type} {a : α} : Keeps (pure a : Uconfig α) := fun _ => Triple.pure fun _ h => h

theorem Keeps.throw {α : Type} {f : Fail} : Keeps (throw f : Uconfig α) := fun _ => Triple.throw fun _ _ => trivial

theorem Keeps.print (t : S8) : Keeps (print t) := fun s => Triple.step fun out h c hc => by
  rw [total_prints8]
  exact List.mem_append_left _ (h c hc)

theorem Keeps.bind {α β : Type} {x : Uconfig α} {f : α → Uconfig β} (hx : Keeps x) (hf : ∀ a, Keeps (f a)) :
    Keeps (x >>= f) := fun s => Triple.bind (hx s) fun a => hf a s

theorem Keeps.forM {l : List Pkg} {f : Pkg → Uconfig Unit} (h : ∀ p, Keeps (f p)) : Keeps (l.forM f) :=
  fun s => Triple.forM fun p _ => h p s

theorem Keeps.ofExcept {α : Type} (r : Except Fail α) : Keeps (Comp.ofExcept r) := by
  cases r with
  | ok a => exact .pure
  | error f => exact .throw

/-- Together with a fact that is not about the buffer. -/
theorem Keeps.and {α : Type} {x : Uconfig α} (hx : Keeps x) (φ : Prop) (s : S8) :
    Triple (fun out => φ ∧ Printed s out) x (fun _ out => φ ∧ Printed s out) fun _ _ => True :=
  fun out h => (hx s out h.2).mono (fun _ hp => ⟨h.1, hp⟩) fun _ _ => trivial

theorem printed_print (s : S8) : Triple (fun _ => True) (print s) (fun _ => Printed s) fun _ _ => True :=
  Triple.step fun out _ c hc => by
    rw [total_prints8]
    exact List.mem_append_right _ hc

theorem keeps_printexpanded (err : Errbuf) (global : Env) (p : Pkg) (value : S8) :
    Keeps (printexpanded err global p value) := by
  apply (Keeps.print _).bind
  intro _
  split
  · exact .throw
  · exact .pure

theorem keeps_printfields (fields : Except Fail Fieldwriter) (argcount : Nat) : Keeps (printfields fields argcount) :=
  (Keeps.ofExcept _).bind fun _ => (Keeps.print _).bind fun _ => .pure

theorem keeps_output (proc : Processor) : Keeps (do
    let argcount ← printcflags conf st proc.pkgs.list 0
    let _ ← printlibs conf st proc.pkgs.list argcount
    printnewline st
    Comp.step flush) := by
  refine Keeps.bind ?_ fun _ => Keeps.bind ?_ fun _ => Keeps.bind ?_ ?_
  · unfold printcflags
    split
    · exact keeps_printfields _ _
    · exact .pure
  · unfold printlibs
    split
    · exact keeps_printfields _ _
    · exact .pure
  · unfold printnewline
    split
    · exact .print _
    · exact .pure
  · intro _
    exact fun s => Triple.step fun out h c hc => by rw [(total_flush out).1]; exact h c hc

theorem keeps_printvariable (global : Env) (l : List Pkg) : Keeps (printvariable st global l) := by
  unfold printvariable
  split
  · exact .pure
  · refine .forM ?_
    intro p
    split
    · split
      · exact (keeps_printexpanded _ _ _ _).bind fun _ => .print _
      · exact .pure
    · exact .pure

/-- The version of a package that was named is printed. -/
theorem report_modversion {proc : Processor} {p : Pkg} (hm : st.modversion = true) (hp : p ∈ proc.pkgs.list)
    (hd : p.flags.pkgDirect = true) :
    Triple (fun _ => True) (report conf st proc) (fun _ => Printed (bytes p.version)) fun _ _ => True := by
  refine Triple.bind ?_ fun _ => ((keeps_printvariable _ _).bind fun _ => keeps_output proc) _
  unfold printmodversion
  rw [if_pos hm]
  refine Triple.forM_mem hp (fun _ _ => Triple.true) ?_ ?_
  · rw [if_pos hd]
    exact Triple.bind (printed_print _) fun _ => Keeps.print _ _
  · intro q _
    split
    · exact ((Keeps.print _).bind fun _ => .print _) _
    · exact Keeps.pure _

/-- The expansion of a variable of a package that was named has not failed, and is
    printed. -/
theorem report_variable {proc : Processor} {p : Pkg} {name value : S8} (hname : st.variable_ = some name)
    (hp : p ∈ proc.pkgs.list) (hd : p.flags.pkgDirect = true) (hv : lookup proc.global p.env name = some value) :
    Triple (fun _ => True) (report conf st proc)
      (fun _ out => (expand (errbuf st) proc.global p value).fail = none ∧
        Printed (expand (errbuf st) proc.global p value).out out) fun _ _ => True := by
  refine Triple.bind Triple.true fun _ => Triple.bind ?_ fun _ => (keeps_output proc).and _ _
  unfold printvariable
  rw [hname]
  refine Triple.forM_mem hp (fun _ _ => Triple.true) ?_ fun q _ => Keeps.and ?_ _ _
  · rw [if_pos hd, hv]
    refine Triple.bind (Triple.bind (printed_print _) ?_) fun _ => (Keeps.print _).and _ _
    intro _
    cases (expand (errbuf st) proc.global p value).fail with
    | some f => exact Triple.throw fun _ _ => trivial
    | none => exact Triple.pure fun _ h => ⟨rfl, h⟩
  · split
    · split
      · exact (keeps_printexpanded _ _ _ _).bind fun _ => .print _
      · exact .pure
    · exact .pure

/-! ## Runs that end with the options -/

/-- Prints a clean text, or fails on stderr. -/
def Halt.Plain : Halt → Prop
  | .exit text => Clean text
  | .fail f => f.err = .stderr
  | _ => True

def Optaction.Plain : Optaction → Prop
  | .exit text => Clean text
  | .flag _ => True
  | .value f => ∀ value st, Ends (f value st) (fun _ => True) Halt.Plain

theorem optiontable_plain : ∀ e ∈ optiontable, e.2.Plain := by
  have hok : ∀ {f : S8 → Optstate → Optstate} (value : S8) (st : Optstate),
      Ends (.ok (f value st)) (fun _ => True) Halt.Plain := fun _ _ => Ends.ok trivial
  have hwith : ∀ value st, Ends (withpath value st) (fun _ => True) Halt.Plain := by
    intro value st
    unfold withpath
    split
    · exact Ends.ok trivial
    · exact Ends.error trivial
  have hdefine : ∀ value st, Ends (definevariable value st) (fun _ => True) Halt.Plain := by
    intro value st
    simp only [definevariable]
    split
    · exact Ends.ok trivial
    · exact Ends.error (E := Halt.Plain) rfl
  have husage : Clean usage := by decide +kernel
  have hversion : Clean (VERSION ++ S "\n") := by decide
  have hexit : ∀ (_ : S8) (_ : Optstate), Ends (.error (.exit []) : Except Halt Optstate) (fun _ => True) Halt.Plain :=
    fun _ _ => Ends.error (E := Halt.Plain) clean_nil
  simp only [optiontable, List.forall_mem_cons, Optaction.Plain]
  exact ⟨husage, husage, hversion, trivial, trivial, trivial, trivial, trivial, hok, trivial, trivial, trivial, trivial,
    trivial, trivial, hwith, hok, trivial, hdefine, trivial, trivial, hexit, hok, hok, hok, trivial, trivial, trivial,
    trivial, trivial, trivial, trivial, trivial, fun _ h => by cases h⟩

theorem applypart_plain (st : Optstate) (part : Part) : Ends (applypart st part) (fun _ => True) Halt.Plain := by
  cases part with
  | positional arg => exact Ends.ok trivial
  | option name value =>
    simp only [applypart]
    cases hl : optiontable.lookup name with
    | none => exact Ends.error (E := Halt.Plain) rfl
    | some action =>
      obtain ⟨l₁, l₂, htable, -⟩ := List.lookup_eq_some_iff.mp hl
      have hplain := optiontable_plain (name, action) (by rw [htable]; simp)
      cases action with
      | exit text => exact Ends.error (E := Halt.Plain) hplain
      | flag f => exact Ends.ok trivial
      | value f =>
        cases value with
        | none => exact Ends.error (E := Halt.Plain) rfl
        | some value => exact hplain value st

theorem optionloop_plain (conf : Config) {h : Halt}
    (hopt : (optionloop (newoptions conf.args) (newoptstate conf)).2 = .error h) : h.Plain := by
  have hrun := (optionloop_run (newoptstate conf) (Options.Inorder.start conf.args) rfl).1
  rw [hopt, outcome] at hrun
  have hparts : Ends (applyparts (parts conf.args) (newoptstate conf)) (fun _ => True) Halt.Plain :=
    Ends.foldlM (fun part _ st _ => applypart_plain st part) trivial
  split at hrun
  · rename_i e he
    cases hrun
    exact hparts.of_error he
  · split at hrun <;> cases hrun
    trivial

/-! ## Whole runs -/

/-- What `report` does, a run does that succeeds. -/
theorem conclude_report (conf : Config) {proc : Processor} {Q : U8buf → Prop}
    (h : Triple (fun _ => True) (report conf st proc) (fun _ => Q) fun _ _ => True) :
    Triple (fun _ => True) (conclude conf st proc) (fun _ => Q) fun _ _ => True := Triple.bind .true fun _ => h

theorem report_flushes (proc : Processor) :
    Triple (fun _ => True) (report conf st proc) (fun _ out => out.buf = []) fun _ _ => True :=
  Triple.bind .true fun _ => Triple.bind .true fun _ => Triple.bind .true fun _ => Triple.bind .true fun _ =>
    Triple.bind .true fun _ => Triple.step fun out _ => (total_flush out).2

/-- Written is what was printed, and the message when it goes to stdout. -/
theorem Ended.stdout_clean {e : Ended} (hout : Cleanbuf e.out)
    (hres : ∀ f, e.result = .error f → f.err = .stdout → Clean f.text) : Clean e.stdout.flatten := by
  have hchunks : Clean e.out.chunks.flatten := hout.of_subset fun c hc => List.mem_append_left _ hc
  cases hr : e.result with
  | ok u => rw [Ended.stdout_ok hr]; exact hchunks
  | error f =>
    by_cases hf : f.err = .stdout
    · rw [Ended.stdout_eq hr hf]
      exact clean_append.mpr ⟨hout, hres f hr hf⟩
    · rw [Ended.stdout_chunks hr hf]
      exact hchunks

theorem cleanbuf_stdoutbuf : Cleanbuf stdoutbuf := clean_nil

theorem Parsed.spread (h : Parsed conf st) (hin : CleanInputs mapfile conf) {proc : Processor}
    (hproc : processargs mapfile st.proc st.args = .ok proc) :
    Spread proc.pkgs.list [] ∧ proc.global.All Tame := by
  have hopt := h.clean hin
  have hempty : st.proc.pkgs.list = [] := by rw [h.applied.pkgs]; rfl
  have hstart : Spread st.proc.pkgs.list [] := by
    rw [hempty]
    exact ⟨fun _ h => (by cases h), fun _ h => (by cases h),
      fun _ => ⟨fun _ h => (by cases h), fun _ h => (by cases h)⟩⟩
  obtain ⟨hspread, hglobal⟩ := processargs_spreads hin hopt.search hopt.args hstart hproc
  exact ⟨hspread, hglobal ▸ hopt.global⟩

/-- From clean inputs: when the versions and the variable that are asked for take in no
    encoded path, nor do, where messages go to stdout, the lists of required packages, no
    encoded byte is written; and in a run that succeeds only then. -/
theorem uconfig_clean_stdout (hin : CleanInputs mapfile conf) {e : Ended} (he : uconfig mapfile conf = some e) :
    ((∀ st proc, Parsed conf st → processargs mapfile st.proc st.args = .ok proc →
        PrintsClean st proc ∧ (errbuf st = .stdout → CleanRequires proc.pkgs.list)) → Clean e.stdout.flatten) ∧
      (e.result = .ok () → Clean e.stdout.flatten →
        ∀ st proc, Parsed conf st → processargs mapfile st.proc st.args = .ok proc → PrintsClean st proc) := by
  cases hopts : (optionloop (newoptions conf.args) (newoptstate conf)).2 with
  | error h =>
    have hplain := optionloop_plain conf hopts
    refine ⟨?_, fun _ _ st _ hst => by rw [Parsed, hopts] at hst; cases hst⟩
    intro _
    rw [uconfig, hopts] at he
    cases h with
    | exit text =>
      cases he
      refine Ended.stdout_clean ?_ fun f hf => by cases hf
      rw [Cleanbuf, (total_flush _).1, total_prints8]
      exact clean_append.mpr ⟨cleanbuf_stdoutbuf, hplain⟩
    | fail f =>
      cases he
      apply Ended.stdout_clean cleanbuf_stdoutbuf
      intro f hf hstd
      cases hf
      rw [show f.err = .stderr from hplain] at hstd
      cases hstd
    | outofbounds => cases he
    | nullpointer => cases he
  | ok st =>
    have hst : Parsed conf st := hopts
    have hopt := hst.clean hin
    rw [uconfig_parsed _ hst] at he
    cases he
    constructor
    · intro h
      cases hproc : processargs mapfile st.proc st.args with
      | error f =>
        rw [afteroptions_fails _ hproc]
        apply Ended.stdout_clean cleanbuf_stdoutbuf
        intro f' hf hstd
        cases hf
        rw [(processargs_on st.args).of_error hproc, hst.procerr] at hstd
        cases hstd
      | ok proc =>
        obtain ⟨hprints, hrequires⟩ := h st proc hst hproc
        have hnames : CleanNames st proc.pkgs.list := fun hstd => ((hst.spread hin hproc).1.clean (hrequires hstd)).2
        have hrun := conclude_clean conf hopt hnames hprints stdoutbuf cleanbuf_stdoutbuf
        rw [afteroptions_ok hproc]
        refine Ended.stdout_clean ?_ fun f hf => (hrun.of_error hf).2
        cases hr : ((conclude conf st proc).run stdoutbuf).1 with
        | ok u => exact (hrun.of_ok hr).2
        | error f => exact (hrun.of_error hr).1
    · intro hok hclean st' proc hst' hproc
      obtain rfl : st = st' := Except.ok.inj (hopts.symm.trans hst')
      rw [afteroptions_ok hproc] at hok hclean
      obtain ⟨hspread, hglobal⟩ := hst.spread hin hproc
      have hflush := (conclude_report conf (report_flushes proc) stdoutbuf trivial).of_ok hok
      have htotal : Cleanbuf ((conclude conf st proc).run stdoutbuf).2 := by
        rw [Cleanbuf, U8buf.total, hflush, List.append_nil]
        exact Ended.stdout_ok hok ▸ hclean
      refine ⟨?_, ?_⟩
      · intro hm p hp hd
        have hrun := conclude_report conf (report_modversion hm hp hd) stdoutbuf trivial
        exact htotal.of_subset (hrun.of_ok hok)
      · intro name hname p hp hd value hv v hreach
        have hrun := conclude_report conf (report_variable hname hp hd hv) stdoutbuf trivial
        obtain ⟨hfail, hprinted⟩ := hrun.of_ok hok
        have hlook : ∀ name v, lookup proc.global p.env name = some v → Tame v :=
          fun name v hl => lookup_all hglobal (hspread.env p hp) hl
        exact expand_unclean hlook (hlook name value hv) hfail (htotal.of_subset hprinted) hreach

/-- The configuration of `plainconf`, with its packages under a directory with a space. -/
def spaceconf (args : List S8) : Config := { plainconf args with fixedpath := S "/a b/lib/pkgconfig" }

def spacefiles : S8 → Filemap :=
  onefile (S "/a b/lib/pkgconfig") (S "Name: x\nVersion: 1\nDescription:\nCflags: -I$\x7bpcfiledir\x7d\n")

theorem cleanInputs_space {args : List S8} (h : ∀ arg ∈ args, Clean arg) : CleanInputs spacefiles (spaceconf args) where
  args := h
  envpath := clean_nil
  fixedpath := show Clean (S "/a b/lib/pkgconfig") by decide
  sys_incpath := show Clean (S "/include") by decide
  sys_libpath := show Clean (S "/lib") by decide
  files path data hdata := by
    unfold spacefiles onefile at hdata
    split at hdata
    · cases hdata; decide
    · cases hdata

theorem uconfig_clean_stdout_cflags : ∃ e,
    uconfig spacefiles (spaceconf [S "--cflags", S "x"]) = some e ∧ Clean e.stdout.flatten := by
  obtain ⟨st, hst, hC⟩ := parsed_of_any (spaceconf [S "--cflags", S "x"])
    (C := fun st => !st.modversion && st.variable_.isNone && errbuf st == .stderr) (by decide +kernel)
  simp only [Bool.and_eq_true, Bool.not_eq_true', Option.isNone_iff_eq_none, beq_iff_eq] at hC
  have hrun := uconfig_clean_stdout (cleanInputs_space (by decide)) (uconfig_parsed spacefiles hst)
  refine ⟨_, uconfig_parsed _ hst, hrun.1 ?_⟩
  intro st' proc hst' _
  obtain rfl : st = st' := Except.ok.inj (hst.symm.trans hst')
  refine ⟨⟨?_, ?_⟩, ?_⟩
  · intro hm
    rw [hC.1.1] at hm; cases hm
  · intro name hname
    rw [hC.1.2] at hname; cases hname
  · intro hstd
    rw [hC.2] at hstd; cases hstd

/-- `--variable` prints the encoded space of a directory. -/
theorem variable_prints_encoded : ¬ ∀ (mapfile : S8 → Filemap) (conf : Config), CleanInputs mapfile conf →
    ∀ e, uconfig mapfile conf = some e → Clean e.stdout.flatten := by
  intro h
  obtain ⟨st, r, hst, hr, hproc⟩ := processargs_runN spacefiles
    (spaceconf [S "--variable=pcfiledir", S "x"]) (S "x")
    (C := fun st r => r.toOption.any fun e =>
      let proc := { st.proc with last := e.last, op := e.op, pending := e.pending, pkgs := e.pkgs }
      let run := (conclude (spaceconf [S "--variable=pcfiledir", S "x"]) st proc).run stdoutbuf
      !decide (Clean (Ended.stdout ⟨run.2, run.1⟩).flatten))
    30 (by decide +kernel)
  cases r with
  | error f => cases hr
  | ok e =>
    have hclean := h _ _ (cleanInputs_space (by decide)) _ (uconfig_parsed _ hst)
    rw [afteroptions_ok hproc] at hclean
    simp only [Except.toOption, Option.any_some, Bool.not_eq_true', decide_eq_false_iff_not] at hr
    exact hr hclean

end GnuWindows.PkgConfig
