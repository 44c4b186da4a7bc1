/-
  GnuWindows.PkgConfig.Depth — what a run loads under --maximum-traverse-depth.

  The list of a package is read when the package is loaded, if it is loaded near enough to
  the arguments. A package that is met again nearer to them is not read again, unless it
  becomes public, and then its Requires only.

  Proved:
  - `processargs_depth_iff`: a run loads what chains of at most N packages lead to exactly
    when no package that is met again is nearer than it was in a way that matters.
-/
import GnuWindows.PkgConfig.Options
import GnuWindows.PkgConfig.Turns

namespace GnuWindows.PkgConfig

open GnuWindows.Lib
open GnuWindows.Lib.Search (Harmless Onchain Owes Within onchain_mem search_exact visits)

variable {mapfile : S8 → Filemap} {proc proc' : Processor} {args : List S8} {x y : Moment}

/-! ## The limit -/

/-- The number an option's value is read as: its digits, whatever is between them. -/
def number (value : S8) : Nat := (value.filter digit).foldl (fun v c => v * 10 + (c.toNat - 0x30)) 0

theorem foldl_digits_le (digits : S8) (v : Nat) : v ≤ digits.foldl (fun v c => v * 10 + (c.toNat - 0x30)) v := by
  induction digits generalizing v with
  | nil => exact Nat.le_refl v
  | cons c digits ih =>
    rw [List.foldl_cons]
    have := ih (v * 10 + (c.toNat - 0x30))
    omega

/-- A number that is too large is read as the bound. -/
theorem parseuint_number (value : S8) {hi : Nat} (h : 0 < hi) : parseuint value hi = min (number value) hi := by
  suffices hloop : ∀ v, v < hi → parseuintloop hi value v =
      min ((value.filter digit).foldl (fun v c => v * 10 + (c.toNat - 0x30)) v) hi from hloop 0 h
  induction value with
  | nil => intro v hv; exact (Nat.min_eq_left (Nat.le_of_lt hv)).symm
  | cons c value ih =>
    intro v hv
    rw [parseuintloop]
    by_cases hc : digit c = true
    · rw [if_pos hc, List.filter_cons_of_pos hc, List.foldl_cons]
      simp only
      split
      · rename_i hle
        have := foldl_digits_le (value.filter digit) (v * 10 + (c.toNat - 0x30))
        omega
      · rename_i hlt
        exact ih _ (Nat.lt_of_not_le hlt)
    · rw [if_neg hc, List.filter_cons_of_neg hc]
      exact ih v hv

/-! ## Chains of packages -/

/-- On some chain of at most `k` packages of the set from a named one, each of which lists
    the next one in Requires or Requires.private. -/
def Chained (l : List Pkg) (roots : List Item) (k : Nat) (p : Pkg) : Prop :=
  ∃ chain : List Pkg, (∀ q ∈ chain, q ∈ l) ∧ chain.length ≤ k ∧ chain.IsChain Pkg.Lists ∧
    (∃ r, chain.head? = some r ∧ Names roots r.realname) ∧ p ∈ chain

/-- The packages of a chain of names. -/
theorem chain_packages {l : List Pkg} (hl : (l.map Pkg.realname).Nodup) {r : Pkg} (hr : r ∈ l) {names : List S8}
    (hc : (r.realname :: names).IsChain fun a b => b ∈ required l a) :
    ∃ chain : List Pkg, (∀ q ∈ r :: chain, q ∈ l) ∧ chain.map Pkg.realname = names ∧
      (r :: chain).IsChain Pkg.Lists := by
  induction names generalizing r with
  | nil => exact ⟨[], by simpa using hr, rfl, List.isChain_singleton r⟩
  | cons n names ih =>
    obtain ⟨hn, hc⟩ := List.isChain_cons_cons.mp hc
    obtain ⟨q, hq, rfl⟩ := List.mem_map.mp (required_names hn)
    obtain ⟨chain, hmem, hnames, hchain⟩ := ih hq hc
    refine ⟨q :: chain, ?_, by rw [List.map_cons, hnames], ?_⟩
    · intro x hx
      rcases List.mem_cons.mp hx with rfl | hx
      · exact hr
      · exact hmem x hx
    · exact List.isChain_cons_cons.mpr ⟨(mem_required hl hr hq).mp hn, hchain⟩

theorem chained_iff {l : List Pkg} (hl : (l.map Pkg.realname).Nodup)
    (hroots : ∀ r ∈ rootnames args, r ∈ l.map Pkg.realname) {k : Nat} {p : Pkg} (hp : p ∈ l) :
    Chained l (argitems args) k p ↔ Onchain (required l) (rootnames args) k p.realname := by
  constructor
  · intro h
    obtain ⟨chain, hmem, hlen, hc, ⟨r, hhead, hr⟩, hpc⟩ := h
    refine ⟨chain.map Pkg.realname, by rw [List.length_map]; exact hlen, ?_, ⟨r.realname, mem_rootnames.mpr hr, ?_⟩,
      List.mem_map_of_mem hpc⟩
    · rw [List.isChain_map]
      exact hc.imp_of_mem_imp fun a b ha hb hab => (mem_required hl (hmem a ha) (hmem b hb)).mpr hab
    · rw [List.head?_map, hhead]
      rfl
  · intro h
    obtain ⟨names, hlen, hc, ⟨n, hn, hhead⟩, hpn⟩ := h
    cases names with
    | nil => cases hhead
    | cons n' names =>
      cases hhead
      obtain ⟨r, hr, rfl⟩ := List.mem_map.mp (hroots n hn)
      obtain ⟨chain, hmem, hnames, hchain⟩ := chain_packages hl hr hc
      refine ⟨r :: chain, hmem, ?_, hchain, ⟨r, rfl, mem_rootnames.mp hn⟩, ?_⟩
      · rw [← hnames] at hlen
        simpa using hlen
      · rw [← hnames, ← List.map_cons] at hpn
        obtain ⟨q, hq, he⟩ := List.mem_map.mp hpn
        rw [← List.inj_on_of_nodup_map hl (hmem q hq) hp he]
        exact hq

/-! ## What is lost -/

/-- The names that the next token has read again. -/
def Moment.again (proc : Processor) (m : Moment) : List S8 :=
  (m.run.top.package?.bind fun tok => m.run.pkgs.list.find? fun p => p.realname == pathtorealname tok).elim []
    (m.run.again proc)

/-- The next token loses nothing. When its package is loaded already, or is not to be
    traversed, each package that the rest of a chain from it can lead to is loaded, or the
    rest of a chain from a token still to be read can. -/
def Moment.Keeps (proc : Processor) (l : List Pkg) (radius : Nat) (m : Moment) : Prop :=
  ∀ tok, m.run.top.package? = some tok → pathtorealname tok ∈ m.names ∨ proc.limit ≤ m.run.top.depth + 1 →
    ∀ n, Within (required l) (radius - m.run.top.depth) (pathtorealname tok) n →
      n = pathtorealname tok ∨ n ∈ m.names ∨
        Owes (required l) radius (visits (m.run.top.depth + 2) (m.again proc) ++ m.agenda.tail) n

/-- A package token is the first visit to come. When its package is loaded already, or is
    not to be traversed, only names that are read again go in front of the rest. -/
theorem Reading.package (hx : Coherent x) (h : Reading mapfile proc x y) {tok : S8}
    (htok : x.run.top.package? = some tok) :
    ∃ rest, x.agenda = (x.run.top.depth + 1, pathtorealname tok) :: rest ∧
      (∀ n, n ∈ y.names ↔ n = pathtorealname tok ∨ n ∈ x.names) ∧
      (pathtorealname tok ∈ x.names ∨ proc.limit ≤ x.run.top.depth + 1 →
        y.agenda = visits (x.run.top.depth + 2) (x.again proc) ++ rest) := by
  have hnames := h.names
  cases h with
  | none hnone => rw [htok] at hnone; cases hnone
  | @met tok' i p rest htok' hp hn _ hagenda hagenda' =>
    obtain rfl : tok = tok' := Option.some.inj (htok.symm.trans htok')
    have hmem : p ∈ x.run.pkgs.list := List.mem_of_getElem? hp
    have hin : pathtorealname tok ∈ x.names := List.mem_map.mpr ⟨p, hmem, hn⟩
    have hfind : x.run.pkgs.list.find? (fun q => q.realname == pathtorealname tok) = some p :=
      hn ▸ find?_name hx.distinct hmem
    refine ⟨rest, hagenda, ?_, fun _ => ?_⟩
    · intro n
      simp only [Moment.added, htok, if_pos hin, Option.toList_none, List.append_nil] at hnames
      rw [hnames]
      exact ⟨Or.inr, fun h => h.elim (fun e => e ▸ hin) id⟩
    · rw [hagenda', Moment.again, htok, Option.bind_some, hfind]
      rfl
  | @load tok' q rest htok' hnew _ _ hagenda hagenda' =>
    obtain rfl : tok = tok' := Option.some.inj (htok.symm.trans htok')
    have hnotin := notMem_names hnew
    have hfind : x.run.pkgs.list.find? (fun q => q.realname == pathtorealname tok) = Option.none := by
      rw [List.find?_eq_none]
      intro p hp
      simpa using hnew p hp
    refine ⟨rest, hagenda, ?_, fun hstop => ?_⟩
    · intro n
      simp only [Moment.added, htok, if_neg hnotin, Option.toList_some] at hnames
      rw [hnames, List.mem_append, List.mem_singleton, or_comm]
    · rw [hagenda', if_neg (Nat.not_lt.mpr (hstop.resolve_left hnotin)), Moment.again, htok, Option.bind_some, hfind]
      rfl

theorem harmless_iff (hx : Coherent x) (h : Reading mapfile proc x y) {l : List Pkg} {radius : Nat} :
    Harmless (required l) proc.limit radius x.search y.search ↔ x.Keeps proc l radius := by
  cases htok : x.run.top.package? with
  | none =>
    have hagenda : y.agenda = x.agenda := by
      cases h with
      | none _ _ hagenda => exact hagenda
      | met htok' => rw [htok] at htok'; cases htok'
      | load htok' => rw [htok] at htok'; cases htok'
    refine iff_of_true ?_ (fun tok htok' => by rw [htok] at htok'; cases htok')
    intro depth n rest hfirst _ m hw
    refine Or.inr ⟨depth, n, ?_, hw⟩
    show (depth, n) ∈ y.agenda
    rw [hagenda, show x.agenda = (depth, n) :: rest from hfirst]
    exact List.mem_cons_self
  | some tok =>
    obtain ⟨rest, hagenda, hnames, hagenda'⟩ := h.package hx htok
    constructor
    · intro hharmless tok' htok' hstop n hw
      obtain rfl : tok = tok' := Option.some.inj (htok.symm.trans htok')
      have hlost := hharmless _ _ rest hagenda hstop n (by rw [Nat.add_sub_add_right]; exact hw)
      simp only [Moment.search, hnames, hagenda' hstop, or_assoc] at hlost
      rw [hagenda]
      exact hlost
    · intro hkeeps depth n rest' hfirst hstop m hw
      have he : (depth, n) :: rest' = (x.run.top.depth + 1, pathtorealname tok) :: rest := hfirst.symm.trans hagenda
      cases he
      have hlost := hkeeps tok htok hstop m (by rw [Nat.add_sub_add_right] at hw; exact hw)
      rw [hagenda] at hlost
      simp only [Moment.search, hnames, hagenda' hstop, or_assoc]
      exact hlost

/-- The last state of a run without a failure reads nothing. -/
theorem processruns_keeps (hf : Fresh proc) (h : processargs mapfile proc args = .ok proc') (l : List Pkg)
    (radius : Nat) :
    ((processruns mapfile proc args).IsChain fun x y =>
        Harmless (required l) proc.limit radius x.search y.search) ↔
      ∀ m ∈ processruns mapfile proc args, m.Keeps proc l radius := by
  refine Trace.isChain_iff_forall ?_ ?_
  · exact (processruns_reading hf args).imp_of_mem_imp fun x _ hx _ hread =>
      harmless_iff (processruns_coherent hf args x hx) hread
  · intro m hm tok htok
    rw [processruns_ok h] at hm
    cases hm
    simp [Procstate.package?, Processor.frame, show (nexttoken []).1 = [] from rfl] at htok

/-- For any processor that has processed nothing, any number N for the option, and any
    package set: when all arguments are processed without a failure, the packages loaded
    are those on a chain of at most max(N, 1) packages from a named one, exactly when no
    token loses one. -/
theorem processargs_depth_iff (hf : Fresh proc) {value : S8} (hN : proc.maxdepth = parseuint value 1000)
    (h : processargs mapfile proc args = .ok proc') {l : List Pkg} (hl : Drawn proc'.pkgs.list l) :
    (∀ p ∈ l, (∃ q ∈ proc'.pkgs.list, q.realname = p.realname) ↔
        Chained l (argitems args) (max (number value) 1) p) ↔
      ∀ m ∈ processruns mapfile proc args, m.Keeps proc l (max (number value) 1) := by
  have hlimit : proc.limit ≤ max (number value) 1 := by
    have hle : proc.maxdepth ≤ number value := by
      rw [hN, parseuint_number value (by decide)]
      exact Nat.min_le_left _ _
    unfold Processor.limit
    split <;> omega
  have hone : 1 ≤ max (number value) 1 := Nat.le_max_right _ _
  have hsearch := processruns_search hf h hl
  have hend := processruns_end h
  have hexact := search_exact hlimit hone hsearch hend rfl
  rw [List.isChain_map, processruns_keeps hf h] at hexact
  rw [← hexact]
  have hroots : ∀ r ∈ rootnames args, r ∈ l.map Pkg.realname := fun r hr => hl.names (hsearch.roots_seen hend rfl hr)
  constructor
  · intro hproperty n
    refine ⟨(hsearch.near hlimit hone _ (List.mem_of_getLast? hend)).seen n, fun hn => ?_⟩
    obtain ⟨p, hp, rfl⟩ := List.mem_map.mp (onchain_mem (fun _ _ => required_names) hroots hn)
    refine List.mem_map.mpr ((hproperty p hp).mpr ?_)
    rw [chained_iff hl.distinct hroots hp]
    exact hn
  · intro hseen p hp
    rw [chained_iff hl.distinct hroots hp, ← hseen, List.mem_map]

/-- A package that requires a second one, which requires a third one. -/
def chainfiles (path : S8) : Filemap :=
  if path == S "/p/a.pc\x00" then .ok (S "Name: a\nVersion: 1\nDescription:\nRequires: b\n")
  else if path == S "/p/b.pc\x00" then .ok (S "Name: b\nVersion: 1\nDescription:\nRequires: c\n")
  else if path == S "/p/c.pc\x00" then .ok (S "Name: c\nVersion: 1\nDescription:\n")
  else .notfound

/-- With --maximum-traverse-depth=2. -/
def shallowproc : Processor := { cyclicproc with maxdepth := parseuint (S "2") 1000 }

theorem shallow_fresh : Fresh shallowproc := ⟨rfl, rfl, rfl⟩

theorem processargs_depth_iff_chain : ∃ proc', processargs chainfiles shallowproc [S "b", S "a"] = .ok proc' ∧
    ((∀ p ∈ proc'.pkgs.list, (∃ q ∈ proc'.pkgs.list, q.realname = p.realname) ↔
        Chained proc'.pkgs.list (argitems [S "b", S "a"]) (max (number (S "2")) 1) p) ↔
      ∀ m ∈ processruns chainfiles shallowproc [S "b", S "a"],
        m.Keeps shallowproc proc'.pkgs.list (max (number (S "2")) 1)) := by
  obtain ⟨proc', _, h⟩ := processargs_eval chainfiles shallowproc [S "b", S "a"] (C := fun _ => true) 20
    (by decide +kernel)
  exact ⟨proc', h, processargs_depth_iff shallow_fresh rfl h (drawn_self shallow_fresh h)⟩

/-- `b` is first met below `a`, where its list is not read, and then as an argument, where
    it is not read again. -/
theorem nearer_lost : ∃ proc' c, processargs chainfiles shallowproc [S "a", S "b"] = .ok proc' ∧
    shallowproc.load chainfiles (S "c") (S "c") = .ok c ∧ Drawn proc'.pkgs.list (proc'.pkgs.list ++ [c]) ∧
    ¬ ∀ p ∈ proc'.pkgs.list ++ [c], (∃ q ∈ proc'.pkgs.list, q.realname = p.realname) ↔
      Chained (proc'.pkgs.list ++ [c]) (argitems [S "a", S "b"]) (max (number (S "2")) 1) p := by
  obtain ⟨proc', hC, h⟩ := processargs_eval chainfiles shallowproc [S "a", S "b"]
    (C := fun proc => proc.pkgs.list.map Pkg.realname == [S "a", S "b"] &&
      proc.pkgs.list.any fun p => p.realname == S "b" && (requirements p.requires).contains (.pkg (S "c"))) 20
    (by decide +kernel)
  simp only [Bool.and_eq_true, beq_iff_eq, List.any_eq_true, List.contains_iff_mem] at hC
  obtain ⟨hnames, b, hb, hbn, hlist⟩ := hC
  obtain ⟨c, hc⟩ : ∃ c, shallowproc.load chainfiles (S "c") (S "c") = .ok c := by
    have hsome : (shallowproc.load chainfiles (S "c") (S "c")).toOption.isSome = true := by decide +kernel
    cases hl : shallowproc.load chainfiles (S "c") (S "c") with
    | error f => rw [hl] at hsome; cases hsome
    | ok c => exact ⟨c, rfl⟩
  have hcn : c.realname = S "c" := realname_load hc
  refine ⟨proc', c, h, hc, ⟨?_, fun p hp => ⟨p, List.mem_append_left _ hp, rfl⟩⟩, ?_⟩
  · rw [List.map_append, hnames, List.map_singleton, hcn]
    decide
  · intro hall
    have hchained : Chained (proc'.pkgs.list ++ [c]) (argitems [S "a", S "b"]) (max (number (S "2")) 1) c := by
      refine ⟨[b, c], ?_, show 2 ≤ max (number (S "2")) 1 by decide, ?_, ⟨b, rfl, ?_⟩, by simp⟩
      · intro x hx
        rcases List.mem_cons.mp hx with rfl | hx
        · exact List.mem_append_left _ hb
        · exact List.mem_append_right _ hx
      · refine List.isChain_cons_cons.mpr ⟨Or.inl ⟨S "c", hlist, ?_⟩, List.isChain_singleton c⟩
        rw [hcn]
        decide
      · rw [hbn]
        exact ⟨S "b", by decide +kernel, by decide⟩
    obtain ⟨q, hq, hqn⟩ := (hall c (by simp)).mpr hchained
    have hmem : S "c" ∈ proc'.pkgs.list.map Pkg.realname := List.mem_map.mpr ⟨q, hq, hqn.trans hcn⟩
    rw [hnames] at hmem
    revert hmem
    decide

end GnuWindows.PkgConfig
