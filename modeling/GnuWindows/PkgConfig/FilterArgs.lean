/-
  GnuWindows.PkgConfig.FilterArgs — what the fields of the packages give under a filter.

  A field is read as its arguments (`fieldargs`); those the filter lets through are
  collected behind what is excluded, and `writeargs` prints the ones at their positions.

  Proved:
  - `appendfield_eq`, `foldlM_collects`: what is collected, whatever the filter is.
  - `libswriter_eq`, `cflagswriter_eq`: what is excluded, whatever the filter is.
  - `keptargs_filter_comm`: an argument keeps or loses its place whether or not others are
    filtered out first.
  - `filtered_partition`: so the filtered outputs are the parts of the full one.
-/
import GnuWindows.PkgConfig.Dedup
import GnuWindows.PkgConfig.DequoteProofs
import GnuWindows.PkgConfig.Uconfig

namespace GnuWindows.PkgConfig

/-! ## What a field is read as -/

/-- The arguments of a field; none with an unmatched quote. -/
def fieldargs (field : S8) : Option (List S8) :=
  if _h : field = [] then some []
  else if _hok : (dequote field).ok = true then (fieldargs (dequote field).tail).map ((dequote field).arg :: ·)
  else none
termination_by field.length
decreasing_by exact dequote_tail_lt _h _hok

theorem filter_any (args : List S8) : args.filter (filterok .any) = args := List.filter_eq_self.mpr fun _ _ => rfl

/-- The writer after these arguments. -/
def Fieldwriter.collect (w : Fieldwriter) (args : List S8) : Fieldwriter :=
  { w with args := (args.filter (filterok w.filter)).foldl appendarg w.args }

theorem Fieldwriter.collect_append (w : Fieldwriter) (a b : List S8) :
    w.collect (a ++ b) = (w.collect a).collect b := by
  simp only [collect, List.filter_append, List.foldl_append]

theorem Fieldwriter.collect_cons (w : Fieldwriter) (arg : S8) (args : List S8) :
    w.collect (arg :: args) =
      (if filterok w.filter arg then { w with args := appendarg w.args arg } else w).collect args := by
  simp only [collect, List.filter_cons]
  split <;> rfl

/-- A package has these arguments, or an unmatched quote. -/
def Fieldwriter.give (w : Fieldwriter) (err : Errbuf) (p : Pkg) : Option (List S8) → Except Fail Fieldwriter
  | some args => .ok (w.collect args)
  | none => .error (failquote err p)

theorem appendfield_eq (err : Errbuf) (w : Fieldwriter) (p : Pkg) (field : S8) :
    appendfield err w p field = w.give err p (fieldargs field) := by
  induction field using fieldargs.induct generalizing w with
  | case1 =>
    rw [fieldargs, dif_pos rfl]
    exact appendfield_nil err w p
  | case2 field hne hok ih =>
    rw [fieldargs, dif_neg hne, dif_pos hok, appendfield, dif_neg hne]
    simp only [dif_pos hok, ih]
    cases fieldargs (dequote field).tail with
    | none => rfl
    | some args => exact congrArg Except.ok (Fieldwriter.collect_cons ..).symm
  | case3 field hne hok =>
    rw [fieldargs, dif_neg hne, dif_neg hok, appendfield, dif_neg hne]
    simp only [dif_neg hok]
    rfl

/-! ## What the packages give -/

variable {err : Errbuf}

/-- The arguments that a package's turn collects. -/
def Collects (err : Errbuf) (turn : Fieldwriter → Pkg → Except Fail Fieldwriter) (args : Pkg → Option (List S8)) :
    Prop :=
  ∀ w p, turn w p = w.give err p (args p)

theorem appendcflags_collects (err : Errbuf) : Collects err (appendcflags err) fun p => fieldargs (bytes p.cflags) :=
  fun w p => appendfield_eq err w p (bytes p.cflags)

/-- What --libs collects of a package, and with --static what follows it. -/
def Pkg.libfields (static_ : Bool) (p : Pkg) : Option (List S8) :=
  if static_ then do
    let libs ← fieldargs (bytes p.libs)
    let libsprivate ← fieldargs (bytes p.libsprivate)
    some (libs ++ libsprivate)
  else if p.flags.pkgPublic then fieldargs (bytes p.libs)
  else some []

theorem appendlibs_collects (err : Errbuf) (static_ : Bool) :
    Collects err (appendlibs err static_) (Pkg.libfields static_) := by
  intro w p
  unfold appendlibs Pkg.libfields
  simp only [appendfield_eq]
  cases static_ with
  | false =>
    by_cases hpublic : p.flags.pkgPublic = true
    · simp only [Bool.false_eq_true, if_false, if_pos hpublic]
    · simp only [Bool.false_eq_true, if_false, if_neg hpublic]
      rfl
  | true =>
    simp only [if_true]
    cases fieldargs (bytes p.libs) with
    | none => rfl
    | some args =>
      cases fieldargs (bytes p.libsprivate) with
      | none => rfl
      | some args' => exact congrArg Except.ok (Fieldwriter.collect_append ..).symm

/-- All packages are read, in their order. -/
theorem foldlM_collects {turn : Fieldwriter → Pkg → Except Fail Fieldwriter} {args : Pkg → Option (List S8)}
    (h : Collects err turn args) {l : List Pkg} (hl : ∀ p ∈ l, (args p).isSome = true) (w : Fieldwriter) :
    l.foldlM turn w = .ok (w.collect (l.flatMap fun p => (args p).getD [])) := by
  induction l generalizing w with
  | nil => rfl
  | cons p l ih =>
    obtain ⟨a, ha⟩ := Option.isSome_iff_exists.mp (hl p List.mem_cons_self)
    rw [List.foldlM_cons, h w p, List.flatMap_cons, ha, Option.getD_some, Fieldwriter.collect_append]
    exact ih (fun q hq => hl q (List.mem_cons_of_mem _ hq)) (w.collect a)

/-- A fold that fails under one filter fails under any. -/
theorem isSome_of_foldlM {turn : Fieldwriter → Pkg → Except Fail Fieldwriter} {args : Pkg → Option (List S8)}
    (h : Collects err turn args) {l : List Pkg} {w w' : Fieldwriter} (hok : l.foldlM turn w = .ok w') :
    ∀ p ∈ l, (args p).isSome = true := by
  induction l generalizing w with
  | nil => exact List.forall_mem_nil _
  | cons p l ih =>
    rw [List.foldlM_cons, h w p] at hok
    cases ha : args p with
    | none =>
      rw [ha] at hok
      cases hok
    | some a =>
      rw [ha] at hok
      exact List.forall_mem_cons.mpr ⟨by rw [ha]; rfl, ih hok⟩

/-! ## What is excluded -/

/-- An argument that starts with one of the directory flags is read as one that does. -/
theorem dequote_dir {flag : UInt8} (hflag : flag = 0x49 ∨ flag = 0x4c) {t : S8}
    (hok : (dequote (0x2d :: flag :: t)).ok = true) :
    startswith (dequote (0x2d :: flag :: t)).arg [0x2d, flag] = true := by
  rw [startswith_iff]
  have hdrop : (0x2d :: flag :: t).dropWhile whitespace = 0x2d :: flag :: t := rfl
  have h1 : dequotebyte .none false 0x2d = some ([0x2d], .none, false) := by decide
  have h2 : dequotebyte .none false flag = some ([flag], .none, false) := by rcases hflag with rfl | rfl <;> decide
  unfold dequote at hok ⊢
  simp only [hdrop, dequoteloop, h1, h2] at hok ⊢
  split at hok
  · cases hok
  · rename_i hq
    rw [if_neg hq]
    exact ⟨_, rfl⟩

/-- A directory as the argument that it would be printed as. -/
def dirargument (flag : UInt8) (dir : S8) : Option S8 :=
  let dr := dequote ([0x2d, flag] ++ s8pathencode dir)
  if dr.ok && dr.tail.isEmpty then some dr.arg else none

/-- The arguments of the directories of a system path. -/
def sysarguments (path : S8) (delim flag : UInt8) : List S8 := (splitpath path delim).filterMap (dirargument flag)

theorem sysarguments_dir {flag : UInt8} (hflag : flag = 0x49 ∨ flag = 0x4c) (path : S8) (delim : UInt8) :
    ∀ x ∈ sysarguments path delim flag, startswith x [0x2d, flag] = true := by
  intro x hx
  obtain ⟨dir, -, hdir⟩ := List.mem_filterMap.mp hx
  unfold dirargument at hdir
  simp only at hdir
  split at hdir
  · rename_i hdr
    obtain rfl := Option.some.inj hdir
    exact dequote_dir hflag (Bool.and_eq_true_iff.mp hdr).1
  · cases hdir

/-- They are what a writer excludes. -/
theorem insertsyspath_eq (w : Fieldwriter) (path : S8) (delim flag : UInt8) :
    insertsyspath w path delim flag =
      { w with args := (sysarguments path delim flag).foldl excludearg w.args } := by
  induction path using splitpath.induct delim generalizing w with
  | case1 =>
    rw [insertsyspath, dif_pos rfl, sysarguments, splitpath, dif_pos rfl]
    rfl
  | case2 path hpath c ih =>
    rw [insertsyspath, dif_neg hpath, sysarguments, splitpath, dif_neg hpath]
    simp only
    by_cases hhead : c.head = []
    · rw [if_pos hhead, if_neg (not_not_intro hhead)]
      exact ih w
    · rw [if_neg hhead, if_pos hhead, List.singleton_append, List.filterMap_cons, dirargument]
      split
      · exact ih _
      · exact ih w

/-- A writer of the options, with something excluded. -/
def filterwriter (st : Optstate) (f : Filter) (excluded : List S8) : Fieldwriter :=
  ⟨excluded.foldl excludearg Args.empty, f, st.msvc, st.argdelim⟩

/-- What `--libs` excludes: the flags of the system directories, unless they are wanted. -/
def syslibs (conf : Config) (st : Optstate) : List S8 :=
  if st.print_syslib then [] else sysarguments conf.sys_libpath conf.delim 0x4c

/-- What `--cflags` excludes. -/
def sysincs (conf : Config) (st : Optstate) : List S8 :=
  if st.print_sysinc then [] else sysarguments conf.sys_incpath conf.delim 0x49

theorem syslibs_dir (conf : Config) (st : Optstate) : ∀ x ∈ syslibs conf st, startswith x (S "-L") = true := by
  unfold syslibs
  split
  · exact List.forall_mem_nil _
  · exact sysarguments_dir (.inr rfl) _ _

theorem sysincs_dir (conf : Config) (st : Optstate) : ∀ x ∈ sysincs conf st, startswith x (S "-I") = true := by
  unfold sysincs
  split
  · exact List.forall_mem_nil _
  · exact sysarguments_dir (.inl rfl) _ _

theorem libswriter_eq (conf : Config) (st : Optstate) (f : Filter) :
    libswriter conf { st with filterl := f } = filterwriter st f (syslibs conf st) := by
  unfold libswriter syslibs
  cases st.print_syslib with
  | true => rfl
  | false => exact insertsyspath_eq ..

theorem cflagswriter_eq (conf : Config) (st : Optstate) (f : Filter) :
    cflagswriter conf { st with filterc := f } = filterwriter st f (sysincs conf st) := by
  unfold cflagswriter sysincs
  cases st.print_sysinc with
  | true => rfl
  | false => exact insertsyspath_eq ..

/-! ## Filtered first or last -/

/-- The arguments that are printed of `rest`, which follows `before`. -/
def keptfrom (excluded before : List S8) : List S8 → List S8
  | [] => []
  | arg :: rest =>
    (if Inplace excluded (before ++ arg :: rest) before.length arg then [arg] else []) ++
      keptfrom excluded (before ++ [arg]) rest

theorem keptfrom_eq (excluded before rest : List S8) :
    keptfrom excluded before rest =
      ((rest.zipIdx before.length).filter fun (arg, k) => Inplace excluded (before ++ rest) k arg).map Prod.fst := by
  induction rest generalizing before with
  | nil => rfl
  | cons arg rest ih =>
    have hih := ih (before ++ [arg])
    rw [List.length_append, List.length_singleton, List.append_assoc, List.singleton_append] at hih
    rw [keptfrom, hih, List.zipIdx_cons, List.filter_cons]
    simp only [decide_eq_true_eq]
    split <;> rfl

theorem keptargs_eq (excluded args : List S8) : keptargs excluded args = keptfrom excluded [] args :=
  (keptfrom_eq excluded [] args).symm

theorem inplace_append (excluded before rest : List S8) (arg : S8) :
    Inplace excluded (before ++ arg :: rest) before.length arg ↔
      arg ∉ excluded ∧ (dedupable arg = false ∨ (startswith arg (S "-l") = false ∧ arg ∉ before) ∨
        (startswith arg (S "-l") = true ∧ arg ∉ rest)) := by
  have hdrop : (before ++ arg :: rest).drop (before.length + 1) = rest := by simp
  rw [Inplace, List.take_left, hdrop]

/-- Others in front of it or behind it do not matter to an argument. -/
theorem inplace_filter {p : S8 → Bool} (excluded before rest : List S8) {arg : S8} (harg : p arg = true) :
    Inplace excluded (before.filter p ++ arg :: rest.filter p) (before.filter p).length arg ↔
      Inplace excluded (before ++ arg :: rest) before.length arg := by
  simp only [inplace_append, List.mem_filter, harg, and_true]

theorem keptfrom_filter (p : S8 → Bool) (excluded before rest : List S8) :
    keptfrom excluded (before.filter p) (rest.filter p) = (keptfrom excluded before rest).filter p := by
  induction rest generalizing before with
  | nil => rfl
  | cons arg rest ih =>
    have hih := ih (before ++ [arg])
    rw [List.filter_append] at hih
    rw [keptfrom, List.filter_append, ← hih]
    by_cases harg : p arg = true
    · rw [List.filter_cons_of_pos harg, List.filter_cons_of_pos harg, List.filter_nil, keptfrom]
      simp only [inplace_filter excluded before rest harg]
      split
      · rw [List.filter_cons_of_pos harg, List.filter_nil]
      · rfl
    · rw [List.filter_cons_of_neg harg, List.filter_cons_of_neg harg, List.filter_nil, List.append_nil]
      split
      · rw [List.filter_cons_of_neg harg]
        rfl
      · rfl

theorem keptargs_filter_comm (p : S8 → Bool) (excluded args : List S8) :
    keptargs excluded (args.filter p) = (keptargs excluded args).filter p := by
  rw [keptargs_eq, keptargs_eq]
  exact keptfrom_filter p excluded [] args

/-! ## The parts of the output -/

/-- The writer prints these arguments, and their text is what comes out. -/
def Prints (fields : Except Fail Fieldwriter) (args : List S8) : Prop :=
  ∃ w, fields = .ok w ∧ written w.args = args ∧ ∀ argcount out,
    (printfields fields argcount).run out = (.ok (argcount + args.length),
      prints8 out (separated (delimiter w) argcount (args.map (rendered w))))

/-- The filters let each argument through once, and print what they let through of all. -/
structure Parts (fields : Filter → Except Fail Fieldwriter) (filters : List Filter) (all : List S8) : Prop where
  full : Prints (fields .any) all
  filtered : ∀ f ∈ filters, Prints (fields f) (all.filter (filterok f))
  once : ∀ arg, ∃! f, f ∈ filters ∧ filterok f arg = true

/-- What `printlibs` prints with a filter. -/
def libsfields (conf : Config) (st : Optstate) (l : List Pkg) (f : Filter) : Except Fail Fieldwriter :=
  l.foldlM (appendlibs (errbuf st) st.static_) (libswriter conf { st with filterl := f })

/-- What `printcflags` prints with a filter. -/
def cflagsfields (conf : Config) (st : Optstate) (l : List Pkg) (f : Filter) : Except Fail Fieldwriter :=
  l.foldlM (appendcflags (errbuf st)) (cflagswriter conf { st with filterc := f })

theorem printlibs_fields (conf : Config) (st : Optstate) (l : List Pkg) (f : Filter) :
    printlibs conf { st with libs := true, filterl := f } l = printfields (libsfields conf st l f) := rfl

theorem printcflags_fields (conf : Config) (st : Optstate) (l : List Pkg) (f : Filter) :
    printcflags conf { st with cflags := true, filterc := f } l = printfields (cflagsfields conf st l f) := rfl

theorem prints_of_ok {w : Fieldwriter} {args : List S8} (h : written w.args = args) : Prints (.ok w) args := by
  subst h
  refine ⟨w, rfl, rfl, fun argcount out => ?_⟩
  rw [printfields]
  simp only [writeargs_written]
  rfl

/-- A filter in front of what is collected is one behind what is printed. -/
theorem prints_filtered {turn : Fieldwriter → Pkg → Except Fail Fieldwriter} {args : Pkg → Option (List S8)}
    {err : Errbuf} (h : Collects err turn args) {l : List Pkg} (hl : ∀ p ∈ l, (args p).isSome = true) (st : Optstate)
    {excluded : List S8} (hx : ∀ x ∈ excluded, startswith x (S "-I") = true ∨ startswith x (S "-L") = true)
    (f : Filter) :
    Prints (l.foldlM turn (filterwriter st f excluded))
      ((keptargs excluded (l.flatMap fun p => (args p).getD [])).filter (filterok f)) := by
  rw [foldlM_collects h hl]
  refine prints_of_ok ?_
  rw [← keptargs_filter_comm, ← written_eq hx]
  rfl

theorem parts_of_collects {turn : Fieldwriter → Pkg → Except Fail Fieldwriter} {args : Pkg → Option (List S8)}
    {err : Errbuf} (h : Collects err turn args) {l : List Pkg} (hl : ∀ p ∈ l, (args p).isSome = true) {st : Optstate}
    {excluded : List S8} (hx : ∀ x ∈ excluded, startswith x (S "-I") = true ∨ startswith x (S "-L") = true)
    {fields : Filter → Except Fail Fieldwriter}
    (hfields : ∀ f, fields f = l.foldlM turn (filterwriter st f excluded)) {filters : List Filter}
    (honce : ∀ arg, ∃! f, f ∈ filters ∧ filterok f arg = true) : ∃ all, Parts fields filters all := by
  refine ⟨keptargs excluded (l.flatMap fun p => (args p).getD []), ?_, fun f _ => ?_, honce⟩
  · rw [hfields, ← filter_any (keptargs _ _)]
    exact prints_filtered h hl st hx .any
  · rw [hfields]
    exact prints_filtered h hl st hx f

theorem libfilter_once (arg : S8) : ∃! f, f ∈ [Filter.L, .l, .otherL] ∧ filterok f arg = true := by
  have hflag : startswith arg (S "-L") = true → startswith arg (S "-l") = false := fun h => startswith_flag (.inr h)
  cases hL : startswith arg (S "-L") with
  | true => exact ⟨.L, by simp [filterok, hL], by simp [filterok, hL, hflag hL]⟩
  | false =>
    cases hl : startswith arg (S "-l") with
    | true => exact ⟨.l, by simp [filterok, hl], by simp [filterok, hL, hl]⟩
    | false => exact ⟨.otherL, by simp [filterok, hL, hl], by simp [filterok, hL, hl]⟩

theorem cflagfilter_once (arg : S8) : ∃! f, f ∈ [Filter.I, .otherC] ∧ filterok f arg = true := by
  cases hI : startswith arg (S "-I") with
  | true => exact ⟨.I, by simp [filterok, hI], by simp [filterok, hI]⟩
  | false => exact ⟨.otherC, by simp [filterok, hI], by simp [filterok, hI]⟩

/-- For all options, configurations and packages whose fields are read to their end: the
    outputs of the filters, which are what `printlibs` and `printcflags` print under the
    options, are the parts of the full output, each in its order. -/
theorem filtered_partition (conf : Config) (st : Optstate) (l : List Pkg) :
    (∀ f, printlibs conf { st with libs := true, filterl := f } l = printfields (libsfields conf st l f)) ∧
    (∀ f, printcflags conf { st with cflags := true, filterc := f } l = printfields (cflagsfields conf st l f)) ∧
    ((∀ p ∈ l, (p.libfields st.static_).isSome = true) →
      ∃ all, Parts (libsfields conf st l) [.L, .l, .otherL] all) ∧
    ((∀ p ∈ l, (fieldargs (bytes p.cflags)).isSome = true) →
      ∃ all, Parts (cflagsfields conf st l) [.I, .otherC] all) := by
  refine ⟨printlibs_fields conf st l, printcflags_fields conf st l, fun hl => ?_, fun hl => ?_⟩
  · have hfields : ∀ f, libsfields conf st l f =
        l.foldlM (appendlibs (errbuf st) st.static_) (filterwriter st f (syslibs conf st)) := fun f => by
      rw [libsfields, libswriter_eq]
    exact parts_of_collects (appendlibs_collects (errbuf st) st.static_) hl
      (fun x hm => .inr (syslibs_dir conf st x hm)) hfields libfilter_once
  · have hfields : ∀ f, cflagsfields conf st l f =
        l.foldlM (appendcflags (errbuf st)) (filterwriter st f (sysincs conf st)) := fun f => by
      rw [cflagsfields, cflagswriter_eq]
    exact parts_of_collects (appendcflags_collects (errbuf st)) hl
      (fun x hm => .inl (sysincs_dir conf st x hm)) hfields cflagfilter_once

/-- System directories, repeated flags and an option without a value, with --static. -/
def partconf : Config := ⟨[], [], S "/p", none, S "/usr/include", S "/usr/lib", none, none, false, 0x3a⟩

def partpackage : Pkg :=
  (Pkg.zero.setField ⟨7, by decide⟩ (some (S "-L/usr/lib -La -lb -lc"))).setField ⟨9, by decide⟩
    (some (S "-Ia -pthread -I/usr/include -Ia"))

theorem filtered_partition_repeated :
    (∃ all, Parts (libsfields partconf { newoptstate partconf with static_ := true } [partpackage, partpackage])
      [.L, .l, .otherL] all) ∧
    ∃ all, Parts (cflagsfields partconf { newoptstate partconf with static_ := true } [partpackage, partpackage])
      [.I, .otherC] all := by
  have h := filtered_partition partconf { newoptstate partconf with static_ := true } [partpackage, partpackage]
  exact ⟨h.2.2.1 (by decide +kernel), h.2.2.2 (by decide +kernel)⟩

end GnuWindows.PkgConfig
