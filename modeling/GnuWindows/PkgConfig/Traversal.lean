/-
  GnuWindows.PkgConfig.Traversal — results about whole runs of the processor.

  A run that ends without a failure leaves a table of packages (`Finished`): the ones that
  are reachable from the arguments, each loaded by a token that an argument or an earlier
  package asks for, with every item of every list met.

  Proved:
  - `processargs_loads`: what is loaded, what is public and what is direct.
  - `processargs_constraints`: no constraint is violated, and none is left without a
    version or a package; when one is, the run fails.
-/
import GnuWindows.PkgConfig.ProcessProofs
import Mathlib.Data.List.Nodup

namespace GnuWindows.PkgConfig

variable {mapfile : S8 → Filemap} {proc proc' : Processor} {args : List S8}

/-- What is left of the arguments' items after a run: nothing, or an operator. -/
theorem frameitems_end {l : List Pkg} {s : Procstate} (h : s.arg = []) {item : Item}
    (hitem : item ∈ frameitems l s []) : item = .dangling s.op ∧ s.op ≠ .ERR := by
  rw [frameitems, h, tokens_nil (s := []) rfl, List.append_nil] at hitem
  cases hlast : s.last.map (nameat l) <;> rw [hlast] at hitem <;> simp only [items] at hitem <;> split at hitem
  all_goals simp_all

/-- A run without a failure, and whether an operator is left at its end. -/
theorem processargs_covered (hf : Fresh proc) (ht : Traverses proc) (h : processargs mapfile proc args = .ok proc') :
    Inv (proc.load mapfile) proc.ignore_versions (argitems args) [] proc'.pkgs.list [proc'.frame []] ∧
      ∀ {flags item}, Covered proc'.pkgs.list proc.ignore_versions [] [proc'.frame []] flags item →
        Met proc'.pkgs.list proc.ignore_versions flags item ∨ (item = .dangling proc'.op ∧ proc'.op ≠ .ERR) := by
  obtain ⟨hb, hc⟩ := processargs_between ht (fresh_between hf args) h
  unfold Between at hb
  constructor
  · rw [hc] at hb ⊢; exact hb
  · intro flags item hcov
    rcases hcov with hm | ⟨_, hitem⟩ | hn
    · exact Or.inl hm
    · exact Or.inr (frameitems_end rfl (by rw [if_pos rfl] at hitem; exact hitem))
    · exact hn.elim

/-! ## What is loaded -/

/-- A way to resolve the names reachable from the arguments to files: tokens may name
    different files by the same real name. -/
structure Resolution (load : S8 → S8 → Except Fail Pkg) (roots : List Item) (l : List Pkg) : Prop where
  loaded : ∀ p ∈ l, Loaded load roots l p
  distinct : (l.map Pkg.realname).Nodup
  reachable : ∀ n, (∃ p ∈ l, p.realname = n) ↔ Reachable l roots true n

/-- A package item that is covered at the end of a run is met. -/
theorem met_of_covered {frames : List Procstate} {l : List Pkg} {ignore : Bool} {op : Versop}
    (hc : ∀ {flags item}, Covered l ignore [] frames flags item →
      Met l ignore flags item ∨ (item = .dangling op ∧ op ≠ .ERR)) {flags : Flags} {tok : S8}
    (hcov : Covered l ignore [] frames flags (.pkg tok)) :
    ∃ p ∈ l, p.realname = pathtorealname tok ∧ flags.Le p.flags := by
  rcases hc hcov with hm | ⟨he, _⟩
  · exact hm
  · cases he

/-- The table a run leaves resolves the names that are reachable from the arguments. -/
theorem processargs_resolution (hf : Fresh proc) (ht : Traverses proc) (h : processargs mapfile proc args = .ok proc') :
    Resolution (proc.load mapfile) (argitems args) proc'.pkgs.list := by
  obtain ⟨hi, hc⟩ := processargs_covered hf ht h
  refine ⟨?_, hi.distinct, fun n => ⟨?_, ?_⟩⟩
  · intro p hp
    obtain ⟨i, hpi⟩ := List.mem_iff_getElem?.mp hp
    obtain ⟨tok, q, hasked, hrest⟩ := hi.loaded i p hpi
    refine ⟨tok, q, ?_, hrest⟩
    rcases hasked with ha | ⟨p', hp', ha⟩
    · exact Or.inl ha
    · exact Or.inr ⟨p', List.mem_of_mem_take hp', ha⟩
  · intro hin
    obtain ⟨p, hp, rfl⟩ := hin
    exact (hi.found p hp).reachable
  · intro hr
    refine hr.closed (C := fun n => ∃ p ∈ proc'.pkgs.list, p.realname = n) ?_ ?_
    · intro r hroot
      obtain ⟨tok, htok, rfl⟩ := hroot
      obtain ⟨p, hp, hn, _⟩ := met_of_covered hc (hi.args _ htok)
      exact ⟨p, hp, hn⟩
    · intro n m _ hlists
      rcases hlists with ⟨p, hp, _, ⟨tok, htok, rfl⟩ | ⟨_, tok, htok, rfl⟩⟩
      · obtain ⟨q, hq, hn, _⟩ := met_of_covered hc (hi.requires p hp _ htok)
        exact ⟨q, hq, hn⟩
      · obtain ⟨q, hq, hn, _⟩ := met_of_covered hc (hi.requiresprivate p hp _ htok)
        exact ⟨q, hq, hn⟩

/-- For any processor that has processed nothing, with the default traversal: when all
    arguments are processed without a failure, each package of the table is what a token
    that was asked for gives, under one name; the table is what is reachable from the
    arguments; what is reachable through Requires alone is public; and what the arguments
    name is direct. -/
theorem processargs_loads (hf : Fresh proc) (ht : Traverses proc) (h : processargs mapfile proc args = .ok proc') :
    (∀ p ∈ proc'.pkgs.list, Loaded (proc.load mapfile) (argitems args) proc'.pkgs.list p) ∧
      (proc'.pkgs.list.map Pkg.realname).Nodup ∧
      (∀ n, (∃ p ∈ proc'.pkgs.list, p.realname = n) ↔ Reachable proc'.pkgs.list (argitems args) true n) ∧
      (∀ p ∈ proc'.pkgs.list, p.flags.pkgPublic = true ↔ Reachable proc'.pkgs.list (argitems args) false p.realname) ∧
      ∀ p ∈ proc'.pkgs.list, p.flags.pkgDirect = true ↔ Names (argitems args) p.realname := by
  obtain ⟨hi, hc⟩ := processargs_covered hf ht h
  have hres := processargs_resolution hf ht h
  have huniq : ∀ p ∈ proc'.pkgs.list, ∀ q ∈ proc'.pkgs.list, p.realname = q.realname → p = q := fun p hp q hq e =>
    List.inj_on_of_nodup_map hi.distinct hp hq e
  refine ⟨hres.loaded, hres.distinct, hres.reachable, fun p hp => ⟨(hi.found p hp).pkgPublic, ?_⟩,
    fun p hp => ⟨(hi.found p hp).pkgDirect, ?_⟩⟩
  · intro hr
    have hpub := hr.closed (C := fun n => ∃ p ∈ proc'.pkgs.list, p.realname = n ∧ p.flags.pkgPublic = true) ?_ ?_
    · obtain ⟨q, hq, hn, hpub⟩ := hpub
      rw [← huniq q hq p hp hn]
      exact hpub
    · intro r hroot
      obtain ⟨tok, htok, rfl⟩ := hroot
      obtain ⟨p, hp, hn, hle⟩ := met_of_covered hc (hi.args _ htok)
      exact ⟨p, hp, hn, hle.2 rfl⟩
    · intro n m hpublic hlists
      obtain ⟨p, hp, hpn, hpub⟩ := hpublic
      rcases hlists with ⟨p', hp', hpn', ⟨tok, htok, rfl⟩ | ⟨hpriv, _⟩⟩
      · rw [← huniq p hp p' hp' (hpn.trans hpn'.symm)] at htok
        obtain ⟨q, hq, hn, hle⟩ := met_of_covered hc (hi.requires p hp _ htok)
        exact ⟨q, hq, hn, hle.2 hpub⟩
      · cases hpriv
  · intro hnamed
    obtain ⟨tok, htok, hn⟩ := hnamed
    obtain ⟨q, hq, hqn, hle⟩ := met_of_covered hc (hi.args _ htok)
    rw [← huniq q hq p hp (hqn.trans hn)]
    exact hle.1 rfl

/-- Two packages that require each other. -/
def cyclicfiles (path : S8) : Filemap :=
  if path == S "/p/a.pc\x00" then
    .ok (S "Name: a\nVersion: 1.0\nDescription:\nRequires: b >= 2\n")
  else if path == S "/p/b.pc\x00" then
    .ok (S "Name: b\nVersion: 2.1\nDescription:\nRequires.private: a < 2\n")
  else .notfound

/-- A processor that looks in `/p`. -/
def cyclicproc : Processor := newprocessor ⟨[], [], S "/p", none, [], [], none, none, false, 0x3a⟩ .stderr Env.empty

theorem cyclic_run : ∃ proc', processargs cyclicfiles cyclicproc [S "a"] = .ok proc' ∧ proc'.op = .ERR ∧
    proc'.pkgs.list.map Pkg.realname = [S "a", S "b"] ∧
    ∃ p ∈ proc'.pkgs.list, .constraint (S "b") .GTE (S "2") ∈ requirements p.requires := by
  obtain ⟨e, he, h⟩ := process_runN cyclicfiles cyclicproc (S "a")
    (C := fun e => e.op == .ERR && e.pkgs.list.map Pkg.realname == [S "a", S "b"] &&
      e.pkgs.list.any fun p => (requirements p.requires).contains (.constraint (S "b") .GTE (S "2"))) 30
    (by decide +kernel)
  simp only [Bool.and_eq_true, beq_iff_eq, List.any_eq_true, List.contains_iff_mem] at he
  exact ⟨_, by rw [processargs, List.foldlM_cons, h]; rfl, he.1.1, he.1.2, he.2⟩

theorem processargs_loads_cyclic : ∃ proc', processargs cyclicfiles cyclicproc [S "a"] = .ok proc' ∧
    Reachable proc'.pkgs.list (argitems [S "a"]) true (S "b") := by
  obtain ⟨proc', h, _, hnames, _⟩ := cyclic_run
  refine ⟨proc', h, ((processargs_loads (fresh_newprocessor _ _ _) (traverses_newprocessor _ _ _) h).2.2.1 _).mp ?_⟩
  exact List.mem_map.mp (by rw [hnames]; decide)

/-! ## Constraints -/

/-- An item of the arguments or of a list of a package. -/
def Written (l : List Pkg) (args : List S8) (item : Item) : Prop :=
  item ∈ argitems args ∨ ∃ p ∈ l, item ∈ requirements p.requires ∨ item ∈ requirements p.requiresprivate

/-- A run without a failure meets every item. -/
theorem processargs_met (hf : Fresh proc) (ht : Traverses proc) (h : processargs mapfile proc args = .ok proc')
    {err : Errbuf} (hend : endprocessor proc' err = .ok ()) {item : Item} (hw : Written proc'.pkgs.list args item) :
    Met proc'.pkgs.list proc.ignore_versions .none item := by
  obtain ⟨hi, hc⟩ := processargs_covered hf ht h
  have hop : proc'.op = .ERR := by
    unfold endprocessor at hend
    split at hend
    · cases hend
    · rename_i hop; exact Decidable.not_not.mp hop
  have hmet : ∀ {flags}, Covered proc'.pkgs.list proc.ignore_versions [] [proc'.frame []] flags item →
      Met proc'.pkgs.list proc.ignore_versions .none item := by
    intro flags hcov
    rcases hc hcov with hm | ⟨_, hne⟩
    · exact hm.weaken ⟨by simp [Flags.none], by simp [Flags.none]⟩
    · exact absurd hop hne
  rcases hw with hw | ⟨p, hp, hw | hw⟩
  · exact hmet (hi.args item hw)
  · exact hmet (hi.requires p hp item hw)
  · exact hmet (hi.requiresprivate p hp item hw)

theorem asked_reachable {load : S8 → S8 → Except Fail Pkg} {roots : List Item} {l : List Pkg}
    (hr : Resolution load roots l) {tok : S8} (ha : Asked l roots tok) : ∃ p ∈ l, p.realname = pathtorealname tok := by
  rw [hr.reachable]
  rcases ha with ha | ⟨p, hp, ha | ha⟩
  · exact ⟨_, ⟨tok, ha, rfl⟩, .refl⟩
  · exact ((hr.reachable _).mp ⟨p, hp, rfl⟩).step ⟨p, hp, rfl, Or.inl ⟨tok, ha, rfl⟩⟩
  · exact ((hr.reachable _).mp ⟨p, hp, rfl⟩).step ⟨p, hp, rfl, Or.inr ⟨rfl, tok, ha, rfl⟩⟩

theorem pathtorealname_plain {tok : S8} (h : realnameispath tok = false) : pathtorealname tok = tok := by
  simp [pathtorealname, h]

/-- When no token that is asked for is a path there is one way to resolve the names: the
    packages a run loads are those of any resolution. -/
theorem loaded_unique {load : S8 → S8 → Except Fail Pkg} {roots : List Item} {l l' : List Pkg}
    (hr : Resolution load roots l) (hplain : ∀ tok, Asked l roots tok → realnameispath tok = false)
    (hl' : ∀ (i : Nat) (p : Pkg), l'[i]? = some p → Loaded load roots (l'.take i) p) (i : Nat) (p' : Pkg)
    (hp' : l'[i]? = some p') : ∃ p ∈ l, p' = { p with flags := p'.flags } := by
  induction i using Nat.strongRecOn generalizing p' with
  | _ i ih =>
  obtain ⟨tok, q, hasked, hn, hq, hpq⟩ := hl' i p' hp'
  -- what was asked for before is asked for in the resolution
  have ha : Asked l roots tok := by
    rcases hasked with ha | ⟨x, hx, ha⟩
    · exact Or.inl ha
    · obtain ⟨j, hj⟩ := List.mem_iff_getElem?.mp hx
      rw [List.getElem?_take] at hj
      split at hj
      · rename_i hji
        obtain ⟨y, hy, hxy⟩ := ih j hji x hj
        refine Or.inr ⟨y, hy, ?_⟩
        rw [hxy] at ha
        exact ha
      · cases hj
  obtain ⟨p, hp, hpn⟩ := asked_reachable hr ha
  obtain ⟨tok1, q1, ha1, hn1, hq1, hpq1⟩ := hr.loaded p hp
  rw [pathtorealname_plain (hplain tok ha)] at hn hpn
  rw [pathtorealname_plain (hplain tok1 ha1)] at hn1
  refine ⟨p, hp, ?_⟩
  rw [hn1, hpn] at hq1
  rw [← hn, hq1] at hq
  cases hq
  rw [hpq, hpq1]

/-- Then a constraint of the resolution is one of the run's table, and is met there when
    the table meets it. -/
theorem met_of_resolution {l : List Pkg} (hf : Fresh proc) (ht : Traverses proc)
    (h : processargs mapfile proc args = .ok proc') {err : Errbuf} (hend : endprocessor proc' err = .ok ())
    (hr : Resolution (proc.load mapfile) (argitems args) l)
    (hplain : ∀ tok, Asked l (argitems args) tok → realnameispath tok = false) {item : Item}
    (hw : Written l args item) : Met l proc.ignore_versions .none item := by
  obtain ⟨hi, _⟩ := processargs_covered hf ht h
  have hmet : ∀ item, Written proc'.pkgs.list args item → Met proc'.pkgs.list proc.ignore_versions .none item :=
    fun _ => processargs_met hf ht h hend
  have hback : ∀ p' ∈ proc'.pkgs.list, ∃ p ∈ l, p' = { p with flags := p'.flags } := by
    intro p' hp'
    obtain ⟨i, hi'⟩ := List.mem_iff_getElem?.mp hp'
    exact loaded_unique hr hplain hi.loaded i p' hi'
  -- a package of the table with a package's name is that package
  have hsame : ∀ p ∈ l, (∃ p' ∈ proc'.pkgs.list, p'.realname = p.realname) →
      ∃ p' ∈ proc'.pkgs.list, p' = { p with flags := p'.flags } := by
    intro p hp hsome
    obtain ⟨p', hp', hn⟩ := hsome
    obtain ⟨p1, hp1, he⟩ := hback p' hp'
    have : p1 = p := List.inj_on_of_nodup_map hr.distinct hp1 hp (by rw [← hn, he])
    exact ⟨p', hp', this ▸ he⟩
  have hfwd : ∀ p ∈ l, ∃ p' ∈ proc'.pkgs.list, p' = { p with flags := p'.flags } := by
    intro p hp
    refine ((hr.reachable p.realname).mp ⟨p, hp, rfl⟩).closed
      (C := fun n => ∀ p ∈ l, p.realname = n → ∃ p' ∈ proc'.pkgs.list, p' = { p with flags := p'.flags }) ?_ ?_ p hp rfl
    · intro r hroot p hp hn
      obtain ⟨tok, htok, rfl⟩ := hroot
      obtain ⟨p', hp', hn', _⟩ := hmet _ (Or.inl htok)
      exact hsame p hp ⟨p', hp', hn'.trans hn.symm⟩
    · intro n m ih hlists p hp hn
      obtain ⟨p0, hp0, hn0, hlist⟩ := hlists
      obtain ⟨p0', hp0', he⟩ := ih p0 hp0 hn0
      rcases hlist with ⟨tok, htok, rfl⟩ | ⟨_, tok, htok, rfl⟩
      · obtain ⟨p', hp', hn', _⟩ := hmet (.pkg tok) (Or.inr ⟨p0', hp0', Or.inl (by rw [he]; exact htok)⟩)
        exact hsame p hp ⟨p', hp', hn'.trans hn.symm⟩
      · obtain ⟨p', hp', hn', _⟩ := hmet (.pkg tok) (Or.inr ⟨p0', hp0', Or.inr (by rw [he]; exact htok)⟩)
        exact hsame p hp ⟨p', hp', hn'.trans hn.symm⟩
  have hw' : Written proc'.pkgs.list args item := by
    rcases hw with hw | ⟨p, hp, hw⟩
    · exact Or.inl hw
    · obtain ⟨p', hp', he⟩ := hfwd p hp
      exact Or.inr ⟨p', hp', by rw [he]; exact hw⟩
  have hm := hmet item hw'
  cases item with
  | pkg tok =>
    obtain ⟨p', hp', hn, _⟩ := hm
    obtain ⟨p, hp, he⟩ := hback p' hp'
    exact ⟨p, hp, by rw [← hn, he], by simp [Flags.Le, Flags.none]⟩
  | constraint n op v =>
    intro hig
    obtain ⟨p', hp', hn, hv⟩ := hm hig
    obtain ⟨p, hp, he⟩ := hback p' hp'
    refine ⟨p, hp, by rw [← hn, he], ?_⟩
    rw [he] at hv
    exact hv
  | unexpected tok => exact hm
  | dangling op => exact hm

/-- Process the arguments and check the end. -/
def processall (mapfile : S8 → Filemap) (proc : Processor) (args : List S8) (err : Errbuf) : Except Fail Processor := do
  let proc ← processargs mapfile proc args
  endprocessor proc err
  .ok proc

theorem processall_ok {err : Errbuf} (h : processall mapfile proc args err = .ok proc') :
    processargs mapfile proc args = .ok proc' ∧ endprocessor proc' err = .ok () := by
  unfold processall at h
  cases hp : processargs mapfile proc args with
  | error f => rw [hp] at h; cases h
  | ok p =>
    rw [hp] at h
    simp only [bind, Except.bind] at h
    cases he : endprocessor p err with
    | error f => rw [he] at h; cases h
    | ok u => rw [he] at h; cases h; exact ⟨rfl, he⟩

/-- For any processor that has processed nothing, with the default traversal and versions
    checked: a run without a failure satisfies every constraint of the arguments and of
    the packages loaded, and every operator has a package and a version. And when, in the
    files the reachable names resolve to, one is violated or lacks one, the run fails:
    with plain names there is one way to resolve them; with paths, when it is so in every
    way to resolve them. -/
theorem processargs_constraints (hf : Fresh proc) (ht : Traverses proc) (hv : proc.ignore_versions = false)
    (err : Errbuf) :
    (∀ proc', processall mapfile proc args err = .ok proc' →
      ∀ item, Written proc'.pkgs.list args item → Met proc'.pkgs.list false .none item) ∧
    (∀ l item, Resolution (proc.load mapfile) (argitems args) l →
      (∀ tok, Asked l (argitems args) tok → realnameispath tok = false) →
      Written l args item → ¬ Met l false .none item → ∃ f, processall mapfile proc args err = .error f) ∧
    ((∀ l, Resolution (proc.load mapfile) (argitems args) l → ∃ item, Written l args item ∧ ¬ Met l false .none item) →
      ∃ f, processall mapfile proc args err = .error f) := by
  have hok : (∀ proc', processall mapfile proc args err = .ok proc' → False) →
      ∃ f, processall mapfile proc args err = .error f := by
    intro hno
    cases hr : processall mapfile proc args err with
    | error f => exact ⟨f, rfl⟩
    | ok proc' => exact (hno proc' hr).elim
  refine ⟨?_, ?_, ?_⟩
  · intro proc' h item hw
    obtain ⟨h1, h2⟩ := processall_ok h
    rw [← hv]
    exact processargs_met hf ht h1 h2 hw
  · intro l item hr hplain hw hn
    refine hok fun proc' h => hn ?_
    obtain ⟨h1, h2⟩ := processall_ok h
    rw [← hv]
    exact met_of_resolution hf ht h1 h2 hr hplain hw
  · intro hall
    apply hok
    intro proc' h
    obtain ⟨h1, h2⟩ := processall_ok h
    obtain ⟨item, hw, hn⟩ := hall _ (processargs_resolution hf ht h1)
    exact hn (hv ▸ processargs_met hf ht h1 h2 hw)

theorem processargs_constraints_cyclic : ∃ proc', processall cyclicfiles cyclicproc [S "a"] .stderr = .ok proc' ∧
    Met proc'.pkgs.list false .none (.constraint (S "b") .GTE (S "2")) := by
  obtain ⟨proc', h, hop, _, p, hp, hitem⟩ := cyclic_run
  have hall : processall cyclicfiles cyclicproc [S "a"] .stderr = .ok proc' := by
    rw [processall, h]
    simp only [bind, Except.bind, endprocessor, hop]
    rfl
  refine ⟨proc', hall, ?_⟩
  exact (processargs_constraints (fresh_newprocessor _ _ _) (traverses_newprocessor _ _ _) rfl _).1 proc' hall _
    (Or.inr ⟨p, hp, Or.inl hitem⟩)

end GnuWindows.PkgConfig
