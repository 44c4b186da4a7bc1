/-
  GnuWindows.PkgConfig.Causes — why processing the arguments fails.

  The invariant of `ProcessProofs` says that nothing which is written is forgotten. Two more
  say that what a frame reads is written (`Reads`, with `Written`), and that the frames are
  no more than the packages allow, two for each and one more for a public one (`room`).

  Proved:
  - `processall_cause`: a failure has a cause (`Cause`) in what is written, among the
    packages of the last state of the run.
  - `processall_resolved`: where every name reachable from the arguments resolves, a run
    succeeds when no item is violated, or there are too many packages for the frames.
-/
import GnuWindows.PkgConfig.Frames
import GnuWindows.PkgConfig.Turns

namespace GnuWindows.PkgConfig

open GnuWindows.Lib.BoundedStack
open GnuWindows.Lib.Hoare (Ends)

variable {mapfile : S8 → Filemap} {proc proc' : Processor} {args later : List S8} {l : List Pkg}

theorem Written.grows {l l' : List Pkg} (h : Grows l l') {item : Item} (hw : Written l args item) :
    Written l' args item := by
  rcases hw with hw | ⟨p, hp, hw⟩
  · exact Or.inl hw
  · obtain ⟨q, hq, hle⟩ := h.mem hp
    exact Or.inr ⟨q, hq, by rw [hle.requires, hle.requiresprivate]; exact hw⟩

theorem written_kept (load : S8 → S8 → Except Fail Pkg) (args : List S8) : Kept load fun l => Written l args where
  grows hg hw := hw.grows hg
  loads _ _ _ _ hitem := Or.inr ⟨_, List.mem_append_right _ (List.mem_singleton_self _), hitem⟩

/-! ## Room for the frames -/

/-- How many frames the packages allow. -/
def room (l : List Pkg) : Nat := 2 * l.length + l.countP (·.flags.pkgPublic)

theorem room_le (l : List Pkg) : room l ≤ 3 * l.length := by
  have : l.countP (·.flags.pkgPublic) ≤ l.length := List.countP_le_length
  unfold room
  omega

theorem countP_addflags (l : List Pkg) (i : Nat) (flags : Flags) :
    l.countP (·.flags.pkgPublic) ≤ (l.modify i (addflags flags)).countP (·.flags.pkgPublic) := by
  induction l generalizing i with
  | nil => exact Nat.zero_le _
  | cons p l ih =>
    cases i with
    | zero =>
      rw [List.modify_zero_cons, List.countP_cons, List.countP_cons]
      cases hp : p.flags.pkgPublic <;> simp [addflags, Flags.or, hp]
    | succ i =>
      rw [List.modify_succ_cons, List.countP_cons, List.countP_cons]
      exact Nat.add_le_add_right (ih i) _

/-- A package that becomes public makes room for one frame. -/
theorem countP_promoted {l : List Pkg} {i : Nat} {p : Pkg} {flags : Flags} (hp : l[i]? = some p)
    (hpublic : flags.pkgPublic = true) (hprivate : p.flags.pkgPublic = false) :
    (l.modify i (addflags flags)).countP (·.flags.pkgPublic) = l.countP (·.flags.pkgPublic) + 1 := by
  induction l generalizing i with
  | nil => cases hp
  | cons q l ih =>
    cases i with
    | zero =>
      obtain rfl := Option.some.inj hp
      rw [List.modify_zero_cons, List.countP_cons, List.countP_cons]
      simp [addflags, Flags.or, hpublic, hprivate]
    | succ i =>
      rw [List.modify_succ_cons, List.countP_cons, List.countP_cons, ih hp]
      omega

/-- One turn of the loop leaves room for its frames. -/
theorem procStep_room {st st' : Procrun} (hcontents : ∀ p ∈ st.pkgs.list, p.contents.isSome = true)
    (h : st.below.length ≤ room st.pkgs.list) (hs : procStep mapfile proc st = .go st') :
    st'.below.length ≤ room st'.pkgs.list := by
  rcases procStep_cases hs with ⟨-, -, hbelow, hpkgs⟩ | ⟨-, -, -, rfl⟩ | ⟨-, -, -, -, -, rfl⟩ | ⟨-, -, -, hp⟩
  · rw [hpkgs]
    rw [hbelow, List.length_cons] at h
    omega
  · exact h
  · exact h
  · rcases procpackage_cases hp hcontents with ⟨i, p, hpi, -, hlist, hframes⟩ | ⟨q, -, -, hlist, hframes⟩
    · rw [hlist]
      split at hframes
      · rename_i hpro
        simp only [Bool.and_eq_true, Bool.not_eq_true'] at hpro
        rw [hframes.2.2, room, countP_promoted hpi hpro.1.1 hpro.1.2, List.length_modify, List.length_cons]
        rw [room] at h
        omega
      · have := countP_addflags st.pkgs.list i st.top.flags
        rw [hframes.2, room, List.length_modify]
        rw [room] at h
        omega
    · have hroom : room st.pkgs.list + 2 ≤ room (st.pkgs.list ++ [addflags st.top.flags q]) := by
        rw [room, room, List.countP_append, List.length_append, List.length_singleton]
        omega
      rw [hlist]
      split at hframes
      · rw [hframes.2.2, List.length_cons, List.length_cons]
        omega
      · rw [hframes.2]
        omega

/-! ## Causes -/

/-- What a failure says, with the packages `l` loaded, is so. -/
inductive Cause (load : S8 → S8 → Except Fail Pkg) (ignore : Bool) (args : List S8) (l : List Pkg) : Fail → Prop
  | load {tok : S8} {f : Fail} : Asked l (argitems args) tok → load (pathtorealname tok) tok = .error f →
      Cause load ignore args l f
  | version (err : Errbuf) {p : Pkg} {op : Versop} {want : S8} : ignore = false → p ∈ l →
      Written l args (.constraint p.realname op want) →
      validcompare op (compareversions (bytes p.version) want) = false →
      Cause load ignore args l (failversion err p op want)
  | operator (err : Errbuf) {tok : S8} : Written l args (.unexpected tok) →
      Cause load ignore args l (failoperator err tok)
  | noversion (err : Errbuf) {op : Versop} (p : Option Pkg) : Written l args (.dangling op) →
      Cause load ignore args l (procfail err op p)
  | toomany (err : Errbuf) {tok : S8} : Asked l (argitems args) tok → 85 ≤ l.length →
      Cause load ignore args l (failmaxrecurse err tok)

theorem procStep_cause {st : Procrun} {f : Fail}
    (hi : Inv (proc.load mapfile) proc.ignore_versions (argitems args) later st.pkgs.list (st.top :: st.below))
    (h : Reads (fun l => Written l args) later st.pkgs.list (st.top :: st.below))
    (hroom : st.below.length ≤ room st.pkgs.list) (hs : procStep mapfile proc st = .stop (.error f)) :
    Cause (proc.load mapfile) proc.ignore_versions args st.pkgs.list f := by
  have hstep := procStep_error hs
  obtain ⟨s, below, pkgs⟩ := st
  simp only at hi h hroom hstep
  rcases hstep with ⟨htok, hop, hbelow, rfl⟩ | ⟨htok, hop, hignore, hvalid, rfl⟩ | ⟨htok, hop, hparse, hlast, rfl⟩ |
    ⟨htok, hop, hparse, hp⟩
  · refine .noversion _ _ (h.items.1 _ ?_)
    rw [if_neg hbelow, frameitems_dangling htok hop]
    exact List.mem_singleton_self _
  · obtain ⟨i, hlast⟩ := Option.isSome_iff_exists.mp (s.pending hop)
    have hlt := hi.lasts s List.mem_cons_self i hlast
    have hget : pkgs.get (s.last.get (s.pending hop)) = pkgs.list[i] := by
      simp [hlast, Pkgs.get, List.getD, List.getElem?_eq_getElem hlt]
    rw [hget] at hvalid ⊢
    refine .version _ hignore (List.getElem_mem hlt) (h.items.1 _ ?_) hvalid
    rw [frameitems_version _ htok hop hlast, nameat_some (List.getElem?_eq_getElem hlt)]
    exact List.mem_cons_self
  · refine .operator _ (h.items.1 _ ?_)
    rw [frameitems_unexpected _ htok hop hparse hlast]
    exact List.mem_singleton_self _
  · have hasked : Asked pkgs.list (argitems args) (nexttoken s.arg).1 := by
      refine (hi.asked.1 _ ?_).1
      unfold frameitems
      rw [hop, tokens_cons htok, List.cons_append, items_package hparse]
      exact List.mem_cons_self
    rcases procpackage_error hp h.contents with ⟨rfl, hcap⟩ | hload
    · have hle := room_le pkgs.list
      have hcap : 254 ≤ below.length := hcap
      have hmany : 85 ≤ pkgs.list.length := by omega
      exact .toomany _ hasked hmany
    · exact .load hasked hload

/-! ## A run -/

/-- A failure in this state, with its cause among the packages that are loaded there. -/
structure FailsIn (load : S8 → S8 → Except Fail Pkg) (ignore : Bool) (args : List S8) (f : Fail) (m : Moment) :
    Prop where
  inv : Inv load ignore (argitems args) m.later m.run.pkgs.list (m.run.top :: m.run.below)
  cause : Cause load ignore args m.run.pkgs.list f

/-- What holds in every state of an argument's loop. -/
theorem process_turns (ht : Traverses proc) {arg : S8} (hb : Between mapfile (argitems args) (tokens arg ++ later) proc)
    (hr : Reads (fun l => Written l args) (tokens arg ++ later) proc.pkgs.list [proc.frame []]) :
    ∀ x ∈ (procMachine mapfile proc).states ⟨proc.frame arg, [], proc.pkgs⟩,
      Inv (proc.load mapfile) proc.ignore_versions (argitems args) later x.pkgs.list (x.top :: x.below) ∧
        Reads (fun l => Written l args) later x.pkgs.list (x.top :: x.below) ∧ x.below.length ≤ room x.pkgs.list := by
  have hstart : Inv (proc.load mapfile) proc.ignore_versions (argitems args) later proc.pkgs.list [proc.frame arg] :=
    Inv.bottom hb rfl rfl rfl (frameitems_frame _ _ _ _)
  refine (procMachine mapfile proc).states_inv (I := fun x =>
    Inv (proc.load mapfile) proc.ignore_versions (argitems args) later x.pkgs.list (x.top :: x.below) ∧
      Reads (fun l => Written l args) later x.pkgs.list (x.top :: x.below) ∧ x.below.length ≤ room x.pkgs.list)
    ?_ _ ⟨hstart, hr.start, Nat.zero_le _⟩
  intro x y hx hstep
  obtain ⟨hinv, hreads, hroom⟩ := hx
  exact ⟨procStep_inv ht hinv hstep, procStep_reads (written_kept _ _) hreads hstep,
    procStep_room hreads.contents hroom hstep⟩

theorem process_failed (ht : Traverses proc) {arg : S8}
    (hb : Between mapfile (argitems args) (tokens arg ++ later) proc)
    (hr : Reads (fun l => Written l args) (tokens arg ++ later) proc.pkgs.list [proc.frame []]) :
    Ends (process mapfile proc arg)
      (fun proc' => Reads (fun l => Written l args) later proc'.pkgs.list [proc'.frame []])
      (fun f => ∃ x, ((procMachine mapfile proc).states ⟨proc.frame arg, [], proc.pkgs⟩).getLast? = some x ∧
        FailsIn (proc.load mapfile) proc.ignore_versions args f ⟨x, later⟩) := by
  obtain ⟨x, hx, hlast⟩ := process_last mapfile proc arg
  obtain ⟨hinv, hreads, hroom⟩ := process_turns ht hb hr x (List.mem_of_getLast? hx)
  rcases hlast with ⟨f, hstep, hp⟩ | ⟨e, hstep, hp⟩
  · rw [hp]
    exact ⟨x, hx, hinv, procStep_cause hinv hreads hroom hstep⟩
  · rw [hp]
    obtain ⟨htok, hbelow, rfl⟩ := procStep_ok hstep
    rw [hbelow] at hreads
    exact hreads.stop htok _ _

theorem processargs_failed {rest : List S8} (ht : Traverses proc)
    (hb : Between mapfile (argitems args) (rest.flatMap tokens) proc)
    (hr : Reads (fun l => Written l args) (rest.flatMap tokens) proc.pkgs.list [proc.frame []]) :
    Ends (processargs mapfile proc rest)
      (fun proc' => Reads (fun l => Written l args) [] proc'.pkgs.list [proc'.frame []])
      (fun f => ∃ m, (processruns mapfile proc rest).getLast? = some m ∧
        FailsIn (proc.load mapfile) proc.ignore_versions args f m) := by
  induction rest generalizing proc with
  | nil => exact hr
  | cons arg rest ih =>
    rw [List.flatMap_cons] at hb hr
    have hone := process_failed ht hb hr
    rw [processargs, List.foldlM_cons, processruns]
    cases h1 : process mapfile proc arg with
    | error f =>
      obtain ⟨x, hx, hfails⟩ := hone.of_error h1
      refine ⟨_, ?_, hfails⟩
      rw [List.append_nil, List.getLast?_map, hx]
      rfl
    | ok p1 =>
      have hconfig := process_config h1
      have ht1 : Traverses p1 := by rw [hconfig]; exact ⟨ht.recursive, ht.maxdepth⟩
      have hload : p1.load mapfile = proc.load mapfile := by rw [hconfig]; rfl
      have hignore : p1.ignore_versions = proc.ignore_versions := by rw [hconfig]
      have hrest := ih ht1 (process_between ht hb h1) (hone.of_ok h1)
      rw [hload, hignore] at hrest
      refine hrest.mono (fun _ h => h) fun f h => ?_
      obtain ⟨m, hm, hfails⟩ := h
      refine ⟨m, ?_, hfails⟩
      rw [List.getLast?_append, hm]
      rfl

/-- A run that fails, and its cause. -/
theorem processall_failed (hf : Fresh proc) (ht : Traverses proc) {err : Errbuf} {f : Fail}
    (h : processall mapfile proc args err = .error f) :
    ∃ m, (processruns mapfile proc args).getLast? = some m ∧
      FailsIn (proc.load mapfile) proc.ignore_versions args f m := by
  have hb : Between mapfile (argitems args) (args.flatMap tokens) proc := fresh_between hf args
  have hrun := processargs_failed ht hb (.fresh hf fun item hitem => Or.inl hitem)
  unfold processall at h
  cases hp : processargs mapfile proc args with
  | error f' =>
    rw [hp] at h
    cases h
    exact hrun.of_error hp
  | ok proc' =>
    rw [hp] at h
    obtain ⟨hbetween, hconfig⟩ := processargs_between ht hb hp
    have hload : proc'.load mapfile = proc.load mapfile := by rw [hconfig]; rfl
    have hignore : proc'.ignore_versions = proc.ignore_versions := by rw [hconfig]
    unfold Between at hbetween
    rw [hload, hignore] at hbetween
    change (endprocessor proc' err >>= fun _ => .ok proc') = _ at h
    unfold endprocessor at h
    split at h
    · rename_i hop
      cases h
      refine ⟨_, processruns_ok hp, hbetween, .noversion _ _ ((hrun.of_ok hp).items.1 _ ?_)⟩
      rw [if_pos rfl, frameitems_dangling (s := proc'.frame []) rfl hop]
      exact List.mem_singleton_self _
    · cases h

/-- For every processor that has processed nothing, with the default traversal, and all
    files and arguments: when processing fails, the packages loaded in the last state of the
    run are each what a token that is asked for gives, under one name, and reachable from the
    arguments; and the failure says what is so there: a package that is asked for cannot be
    loaded, or a constraint that is written is violated, or an operator that is written lacks
    its package or its version, or there are at least 85 packages. -/
theorem processall_cause (hf : Fresh proc) (ht : Traverses proc) {err : Errbuf} {f : Fail}
    (h : processall mapfile proc args err = .error f) :
    ∃ m, (processruns mapfile proc args).getLast? = some m ∧
      (∀ p ∈ m.run.pkgs.list, Loaded (proc.load mapfile) (argitems args) m.run.pkgs.list p ∧
        Reachable m.run.pkgs.list (argitems args) true p.realname) ∧
      (m.run.pkgs.list.map Pkg.realname).Nodup ∧
      Cause (proc.load mapfile) proc.ignore_versions args m.run.pkgs.list f := by
  obtain ⟨m, hm, hi, hcause⟩ := processall_failed hf ht h
  refine ⟨m, hm, fun p hp => ⟨?_, (hi.found p hp).reachable⟩, hi.distinct, hcause⟩
  obtain ⟨i, hpi⟩ := List.mem_iff_getElem?.mp hp
  obtain ⟨tok, q, hasked, hrest⟩ := hi.loaded i p hpi
  refine ⟨tok, q, hasked.imp id fun hlist => ?_, hrest⟩
  obtain ⟨p', hp', ha⟩ := hlist
  exact ⟨p', List.mem_of_mem_take hp', ha⟩

/-- Two packages, the second of which lists a third. -/
def brokenfiles (path : S8) : Filemap :=
  if path == S "/p/a.pc\x00" then .ok (S "Name: a\nVersion: 1.0\nDescription:\nRequires: b >= 2\n")
  else if path == S "/p/b.pc\x00" then .ok (S "Name: b\nVersion: 2.1\nDescription:\nRequires: c\n")
  else .notfound

theorem processall_cause_missing : ∃ f m, processall brokenfiles cyclicproc [S "a"] .stderr = .error f ∧
    (processruns brokenfiles cyclicproc [S "a"]).getLast? = some m ∧
    m.run.pkgs.list.map Pkg.realname = [S "a", S "b"] ∧
    Cause (cyclicproc.load brokenfiles) false [S "a"] m.run.pkgs.list f := by
  have hrun : ((procMachine brokenfiles cyclicproc).lastN 9 ⟨cyclicproc.frame (S "a"), [], cyclicproc.pkgs⟩).any
      (fun r => r.1.pkgs.list.map Pkg.realname == [S "a", S "b"] && r.2.toOption.isNone) = true := by decide +kernel
  obtain ⟨⟨x, r⟩, hr, hbroken⟩ := (Option.any_eq_true _ _).mp hrun
  simp only [Bool.and_eq_true, beq_iff_eq] at hbroken
  obtain ⟨hx, hresult⟩ := (procMachine brokenfiles cyclicproc).states_of_lastN hr
  cases r with
  | ok e => cases hbroken.2
  | error f =>
    have hprocess : process brokenfiles cyclicproc (S "a") = .error f := by rw [process, hresult]
    have hall : processall brokenfiles cyclicproc [S "a"] .stderr = .error f := by
      rw [processall, processargs, List.foldlM_cons, hprocess]
      rfl
    have hlast : (processruns brokenfiles cyclicproc [S "a"]).getLast? = some ⟨x, []⟩ := by
      rw [processruns, hprocess, List.append_nil, List.getLast?_map, hx]
      rfl
    obtain ⟨m, hm, -, -, hcause⟩ := processall_cause (fresh_newprocessor _ _ _) (traverses_newprocessor _ _ _) hall
    obtain rfl := Option.some.inj (hlast.symm.trans hm)
    exact ⟨f, _, hall, hm, hbroken.1, hcause⟩

/-! ## Where the names resolve -/

/-- What loads a package of the table is in the resolution, whatever its flags. -/
theorem written_of_table {l l' : List Pkg} (h : ∀ p' ∈ l', ∃ p ∈ l, p' = { p with flags := p'.flags }) {item : Item}
    (hw : Written l' args item) : Written l args item := by
  rcases hw with hw | ⟨p', hp', hw⟩
  · exact Or.inl hw
  · obtain ⟨p, hp, he⟩ := h p' hp'
    rw [he] at hw
    exact Or.inr ⟨p, hp, hw⟩

theorem asked_of_table {l l' : List Pkg} (h : ∀ p' ∈ l', ∃ p ∈ l, p' = { p with flags := p'.flags })
    {roots : List Item} {tok : S8} (ha : Asked l' roots tok) : Asked l roots tok := by
  rcases ha with ha | ⟨p', hp', ha⟩
  · exact Or.inl ha
  · obtain ⟨p, hp, he⟩ := h p' hp'
    rw [he] at ha
    exact Or.inr ⟨p, hp, ha⟩

/-- A token that is asked for and is no path is what its package was loaded by. -/
theorem Resolution.loads {load : S8 → S8 → Except Fail Pkg} {roots : List Item} (hr : Resolution load roots l)
    (hplain : ∀ tok, Asked l roots tok → realnameispath tok = false) {tok : S8} (ha : Asked l roots tok) :
    ∃ q, load (pathtorealname tok) tok = .ok q := by
  obtain ⟨p, hp, hpn⟩ := asked_reachable hr ha
  obtain ⟨tok1, q, ha1, hn1, hq, -⟩ := hr.loaded p hp
  rw [pathtorealname_plain (hplain tok1 ha1)] at hn1
  rw [pathtorealname_plain (hplain tok ha)] at hpn ⊢
  rw [hn1, hpn] at hq
  exact ⟨q, hq⟩

/-- In a resolution that meets every item, a failure can only come from the frames. -/
theorem cause_of_met {load : S8 → S8 → Except Fail Pkg} {ignore : Bool} {l' : List Pkg} {f : Fail}
    (hr : Resolution load (argitems args) l) (hplain : ∀ tok, Asked l (argitems args) tok → realnameispath tok = false)
    (htable : ∀ p' ∈ l', ∃ p ∈ l, p' = { p with flags := p'.flags })
    (hmet : ∀ item, Written l args item → Met l ignore .none item) (hcause : Cause load ignore args l' f) :
    85 ≤ l'.length ∧ ∃ err tok, f = failmaxrecurse err tok := by
  cases hcause with
  | load hasked hload =>
    obtain ⟨q, hq⟩ := hr.loads hplain (asked_of_table htable hasked)
    rw [hq] at hload
    cases hload
  | version err hignore hp hw hvalid =>
    obtain ⟨p, hp, he⟩ := htable _ hp
    rw [he] at hw hvalid
    obtain ⟨q, hq, hn, hv⟩ := hmet _ (written_of_table htable hw) hignore
    obtain rfl : q = p := List.inj_on_of_nodup_map hr.distinct hq hp hn
    exact Bool.noConfusion (hv.symm.trans hvalid)
  | operator err hw => exact (hmet _ (written_of_table htable hw)).elim
  | noversion err p hw => exact (hmet _ (written_of_table htable hw)).elim
  | toomany err hasked hmany => exact ⟨hmany, err, _, rfl⟩

/-- For every processor that has processed nothing, with the default traversal, and all
    files and arguments where every name reachable from the arguments resolves to a package
    that loads, by tokens that are no paths: processing succeeds only if every item that is
    written is met; and if every one is it does succeed, or there are at least 85 packages
    and the frames do not suffice. -/
theorem processall_resolved (hf : Fresh proc) (ht : Traverses proc)
    (hr : Resolution (proc.load mapfile) (argitems args) l)
    (hplain : ∀ tok, Asked l (argitems args) tok → realnameispath tok = false) (err : Errbuf) :
    ((∃ proc', processall mapfile proc args err = .ok proc') →
      ∀ item, Written l args item → Met l proc.ignore_versions .none item) ∧
    ((∀ item, Written l args item → Met l proc.ignore_versions .none item) →
      (∃ proc', processall mapfile proc args err = .ok proc') ∨
        85 ≤ l.length ∧ ∃ e tok, processall mapfile proc args err = .error (failmaxrecurse e tok)) := by
  constructor
  · intro hok item hw
    obtain ⟨proc', hok⟩ := hok
    obtain ⟨h1, h2⟩ := processall_ok hok
    exact met_of_resolution hf ht h1 h2 hr hplain hw
  · intro hmet
    cases hall : processall mapfile proc args err with
    | ok proc' => exact Or.inl ⟨proc', rfl⟩
    | error f =>
      obtain ⟨m, -, hi, hcause⟩ := processall_failed hf ht hall
      generalize m.run.pkgs.list = l' at hi hcause
      have htable : ∀ p' ∈ l', ∃ p ∈ l, p' = { p with flags := p'.flags } := fun p' hp' => by
        obtain ⟨i, hi'⟩ := List.mem_iff_getElem?.mp hp'
        exact loaded_unique hr hplain hi.loaded i p' hi'
      obtain ⟨hmany, e, tok, rfl⟩ := cause_of_met hr hplain htable hmet hcause
      -- the table has its names from the resolution, each once
      have hnames : l'.map Pkg.realname ⊆ l.map Pkg.realname := fun n hn => by
        obtain ⟨p', hp', rfl⟩ := List.mem_map.mp hn
        obtain ⟨p, hp, he⟩ := htable p' hp'
        exact List.mem_map.mpr ⟨p, hp, by rw [he]⟩
      have hle := (List.subperm_of_subset hi.distinct hnames).length_le
      rw [List.length_map, List.length_map] at hle
      exact Or.inr ⟨Nat.le_trans hmany hle, e, tok, rfl⟩

/-- No token of the arguments or of a list is a path. -/
def plaintokens (l : List Pkg) (args : List S8) : Bool :=
  (argitems args ++ l.flatMap fun p => requirements p.requires ++ requirements p.requiresprivate).all fun item =>
    match item with
    | .pkg tok => !realnameispath tok
    | _ => true

theorem plain_of_plaintokens (h : plaintokens l args = true) (tok : S8) (ha : Asked l (argitems args) tok) :
    realnameispath tok = false := by
  have hall := List.all_eq_true.mp h (.pkg tok) ?_
  · exact Bool.not_eq_true' _ |>.mp hall
  · rcases ha with ha | ⟨p, hp, ha⟩
    · exact List.mem_append_left _ ha
    · exact List.mem_append_right _ (List.mem_flatMap.mpr ⟨p, hp, List.mem_append.mpr ha⟩)

theorem processall_resolved_cyclic : ∃ l, Resolution (cyclicproc.load cyclicfiles) (argitems [S "a"]) l ∧
    l.length = 2 ∧ ∀ item, Written l [S "a"] item → Met l false .none item := by
  obtain ⟨e, he, h⟩ := process_runN cyclicfiles cyclicproc (S "a")
    (C := fun e => e.op == .ERR && e.pkgs.list.length == 2 && plaintokens e.pkgs.list [S "a"]) 30 (by decide +kernel)
  simp only [Bool.and_eq_true, beq_iff_eq] at he
  obtain ⟨⟨hop, hlen⟩, hplain⟩ := he
  obtain ⟨proc', hargs, hpkgs, hend⟩ : ∃ proc', processargs cyclicfiles cyclicproc [S "a"] = .ok proc' ∧
      proc'.pkgs = e.pkgs ∧ proc'.op = e.op :=
    ⟨_, by rw [processargs, List.foldlM_cons, h]; rfl, rfl, rfl⟩
  have hall : processall cyclicfiles cyclicproc [S "a"] .stderr = .ok proc' := by
    rw [processall, hargs]
    simp only [bind, Except.bind, endprocessor, hend, hop]
    rfl
  have hf : Fresh cyclicproc := fresh_newprocessor _ _ _
  have ht : Traverses cyclicproc := traverses_newprocessor _ _ _
  have hr := processargs_resolution hf ht hargs
  rw [← hpkgs] at hplain hlen
  exact ⟨_, hr, hlen, (processall_resolved hf ht hr (plain_of_plaintokens hplain) .stderr).1 ⟨proc', hall⟩⟩

end GnuWindows.PkgConfig
