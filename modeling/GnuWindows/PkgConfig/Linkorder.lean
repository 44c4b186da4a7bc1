/-
  GnuWindows.PkgConfig.Linkorder — the order of the -l flags that --libs --static prints.

  The flags of the packages are collected in load order, and a flag is printed where it is
  collected last. The load order is that of the first chains to the packages, when the
  chains are ordered like words in a dictionary.

  Proved:
  - `printlibs_order_iff`: a package's flag is printed before those of what it lists
    exactly when the first chain to it comes before the first chains to these.
-/
import GnuWindows.PkgConfig.FilterArgs
import GnuWindows.PkgConfig.Turns
import Mathlib.Data.List.Dedup

namespace GnuWindows.PkgConfig

open GnuWindows.Lib.Search (Acyclic Unfolds acyclic_of_rank search_order unfolds_exists)

variable {mapfile : S8 → Filemap} {proc proc' : Processor} {args : List S8}

/-! ## What the packages give -/

/-- What --static collects of a package. -/
def Pkg.libargs (p : Pkg) : List S8 := (fieldargs (bytes p.libs)).getD [] ++ (fieldargs (bytes p.libsprivate)).getD []

theorem libfields_static {p : Pkg} (h : (p.libfields true).isSome = true) : (p.libfields true).getD [] = p.libargs := by
  unfold Pkg.libfields Pkg.libargs at *
  simp only [if_true] at h ⊢
  cases hlibs : fieldargs (bytes p.libs) with
  | none =>
    rw [hlibs] at h
    cases h
  | some args =>
    rw [hlibs] at h
    cases hprivate : fieldargs (bytes p.libsprivate) with
    | none =>
      rw [hprivate] at h
      cases h
    | some args' => rfl

theorem foldlM_appendlibs {err : Errbuf} {w w' : Fieldwriter} {l : List Pkg} (hf : w.filter = .any)
    (h : l.foldlM (appendlibs err true) w = .ok w') :
    w' = { w with args := (l.flatMap Pkg.libargs).foldl appendarg w.args } := by
  have hsome := isSome_of_foldlM (appendlibs_collects err true) h
  have hargs : (l.flatMap fun p => (p.libfields true).getD []) = l.flatMap Pkg.libargs :=
    List.flatMap_congr fun p hp => libfields_static (hsome p hp)
  rw [foldlM_collects (appendlibs_collects err true) hsome, hargs] at h
  cases h
  rw [Fieldwriter.collect, hf, filter_any]

/-! ## What is printed -/

theorem dedup_filter (kind : S8 → Bool) (l : List S8) : (l.filter kind).dedup = l.dedup.filter kind := by
  induction l with
  | nil => rfl
  | cons a l ih =>
    by_cases ha : a ∈ l
    · rw [List.dedup_cons_of_mem ha, ← ih]
      by_cases hk : kind a = true
      · rw [List.filter_cons_of_pos hk, List.dedup_cons_of_mem (List.mem_filter.mpr ⟨ha, hk⟩)]
      · rw [List.filter_cons_of_neg hk]
    · rw [List.dedup_cons_of_notMem ha]
      by_cases hk : kind a = true
      · have hn : a ∉ l.filter kind := fun h => ha (List.mem_filter.mp h).1
        rw [List.filter_cons_of_pos hk, List.filter_cons_of_pos hk, List.dedup_cons_of_notMem hn, ih]
      · rw [List.filter_cons_of_neg hk, List.filter_cons_of_neg hk, ih]

/-- -l flags that are not excluded are printed at the last place of each. -/
theorem keptargs_last {excluded : List S8} {kind : S8 → Bool}
    (hk : ∀ arg, kind arg = true → dedupable arg = true ∧ startswith arg (S "-l") = true ∧ arg ∉ excluded)
    (args : List S8) : (keptargs excluded args).filter kind = args.dedup.filter kind := by
  induction args with
  | nil => rfl
  | cons a args ih =>
    -- of this kind, what is printed of the other arguments does not depend on the first one
    have hrest :
        (((args.zipIdx 1).filter fun x => Inplace excluded (a :: args) x.2 x.1).map Prod.fst).filter kind =
          (keptargs excluded args).filter kind := by
      rw [List.zipIdx_succ, keptargs]
      simp only [List.filter_map, List.map_map, List.filter_filter]
      show List.map Prod.fst _ = List.map Prod.fst _
      congr 1
      refine List.filter_congr fun x _ => ?_
      cases hc : kind x.1 with
      | false => simp [hc]
      | true =>
        obtain ⟨hd, hl, _⟩ := hk x.1 hc
        simp [hc, Inplace, hd, hl]
    have hcons : (keptargs excluded (a :: args)).filter kind =
        (if Inplace excluded (a :: args) 0 a then [a] else []).filter kind ++ (keptargs excluded args).filter kind := by
      rw [← hrest, ← List.filter_append, keptargs, List.zipIdx_cons, List.filter_cons]
      simp only [decide_eq_true_eq]
      split <;> rfl
    rw [hcons, ih]
    cases hc : kind a with
    | false =>
      have hnone : (if Inplace excluded (a :: args) 0 a then [a] else []).filter kind = [] := by split <;> simp [hc]
      rw [hnone, ← dedup_filter, ← dedup_filter, List.filter_cons_of_neg (by simp [hc])]
      rfl
    | true =>
      obtain ⟨hd, hl, hx⟩ := hk a hc
      have hp : Inplace excluded (a :: args) 0 a ↔ a ∉ args := by simp [Inplace, hx, hd, hl]
      by_cases ha : a ∈ args
      · rw [if_neg (by rw [hp]; exact not_not_intro ha), List.dedup_cons_of_mem ha]
        rfl
      · rw [if_pos (hp.mpr ha), List.dedup_cons_of_notMem ha, List.filter_cons_of_pos hc, List.filter_nil,
          List.filter_cons_of_pos hc]
        rfl

/-- A -l flag with a name. -/
def Libname (flag : S8) : Prop := ∃ name, name ≠ [] ∧ flag = S "-l" ++ name

theorem Libname.counted {flag : S8} (h : Libname flag) : dedupable flag = true ∧ startswith flag (S "-l") = true := by
  obtain ⟨name, hne, rfl⟩ := h
  obtain ⟨d, name, rfl⟩ := List.exists_cons_of_ne_nil hne
  exact ⟨dedupable_flag (by decide), startswith_iff.mpr ⟨d :: name, rfl⟩⟩

theorem sublist_filter_iff {kind : S8 → Bool} {f g : S8} (hf : kind f = true) (hg : kind g = true) (l : List S8) :
    [f, g].Sublist l ↔ [f, g].Sublist (l.filter kind) := by
  constructor
  · intro h
    have hfilter := h.filter kind
    rw [List.filter_cons_of_pos hf, List.filter_cons_of_pos hg, List.filter_nil] at hfilter
    exact hfilter
  · intro h
    exact h.trans List.filter_sublist

/-- The order in which -l flags are printed is that of their last places. -/
theorem written_libs {err : Errbuf} {conf : Config} {st : Optstate} {w : Fieldwriter} {l : List Pkg}
    (hfilter : st.filterl = .any) (hw : l.foldlM (appendlibs err true) (libswriter conf st) = .ok w) {f g : S8}
    (hf : Libname f) (hg : Libname g) :
    [f, g].Sublist (written w.args) ↔ [f, g].Sublist (l.flatMap Pkg.libargs).dedup := by
  have hx := syslibs_dir conf st
  have hnew : libswriter conf st = filterwriter st .any (syslibs conf st) := by
    rw [← libswriter_eq, ← hfilter]
  have hcollect : w.args = collectargs (syslibs conf st) (l.flatMap Pkg.libargs) := by
    rw [hnew] at hw
    rw [foldlM_appendlibs rfl hw]
    rfl
  let kind (arg : S8) : Bool := arg == f || arg == g
  have hkind : ∀ arg, kind arg = true →
      dedupable arg = true ∧ startswith arg (S "-l") = true ∧ arg ∉ syslibs conf st := by
    intro arg ha
    have hcounted : dedupable arg = true ∧ startswith arg (S "-l") = true := by
      rcases Bool.or_eq_true_iff.mp ha with he | he
      · rw [beq_iff_eq.mp he]; exact hf.counted
      · rw [beq_iff_eq.mp he]; exact hg.counted
    refine ⟨hcounted.1, hcounted.2, fun hm => ?_⟩
    have hnot := startswith_flag (Or.inr (hx arg hm))
    rw [hcounted.2] at hnot
    cases hnot
  have hkf : kind f = true := by simp [kind]
  have hkg : kind g = true := by simp [kind]
  rw [hcollect, written_eq fun x hm => Or.inr (hx x hm), sublist_filter_iff hkf hkg, keptargs_last hkind,
    ← sublist_filter_iff hkf hkg]

/-! ## The load order -/

theorem traverses_deep (hf : Fresh proc) (ht : Traverses proc) :
    ∀ x ∈ (processruns mapfile proc args).map Moment.search, ∀ v ∈ x.agenda, v.1 < proc.limit := by
  intro x hx v hv
  obtain ⟨m, hm, rfl⟩ := List.mem_map.mp hx
  have hdepth := processruns_depth hf hm v hv
  have hlimit : proc.limit = 0x7fffffff := by rw [Processor.limit, if_pos ht.recursive, ht.maxdepth]
  omega

/-- The load order is that of the first chains. -/
theorem loadorder (hf : Fresh proc) (ht : Traverses proc) (h : processargs mapfile proc args = .ok proc')
    {l : List Pkg} (hl : Drawn proc'.pkgs.list l) (hacyclic : Acyclic (required l)) {unfolded : List S8}
    (hunfolded : Unfolds (required l) (rootnames args) unfolded) :
    proc'.pkgs.list.map Pkg.realname = unfolded.eraseDups :=
  search_order (processruns_search hf h hl) (traverses_deep hf ht) hacyclic hunfolded (processruns_end h) rfl

/-- What --static collects of the package of a name. -/
def mentions (l : List Pkg) (n : S8) : List S8 := (l.find? fun p => p.realname == n).elim [] Pkg.libargs

theorem mentions_eq {l : List Pkg} (hl : (l.map Pkg.realname).Nodup) {p : Pkg} (hp : p ∈ l) :
    mentions l p.realname = p.libargs := by
  rw [mentions, find?_name hl hp]
  rfl

theorem flatMap_mentions {table l : List Pkg} (hl : Drawn table l) :
    table.flatMap Pkg.libargs = (table.map Pkg.realname).flatMap (mentions l) := by
  rw [List.flatMap_map]
  refine List.flatMap_congr fun p hp => ?_
  obtain ⟨q, hq, he⟩ := hl.mem p hp
  have hm := mentions_eq hl.distinct hq
  rw [he]
  exact hm.symm

/-- Each package's flag stands before those of the packages it lists. -/
def Linkorder (l : List Pkg) (flag : S8 → S8) (printed : List S8) : Prop :=
  ∀ p ∈ l, ∀ q ∈ l, p.Lists q → [flag p.realname, flag q.realname].Sublist printed

theorem sublist_map_inj {flag : S8 → S8} {l : List S8} (hinj : ∀ a ∈ l, ∀ b ∈ l, flag a = flag b → a = b) {n m : S8}
    (hn : n ∈ l) (hm : m ∈ l) : [flag n, flag m].Sublist (l.map flag) ↔ [n, m].Sublist l := by
  constructor
  · intro h
    obtain ⟨l', hl', he⟩ := List.sublist_map_iff.mp h
    have hlen : l'.length = 2 := by
      have := congrArg List.length he
      simpa using this.symm
    obtain ⟨a, b, rfl⟩ := List.length_eq_two.mp hlen
    simp only [List.map_cons, List.map_nil, List.cons.injEq, and_true] at he
    have ha : a ∈ l := hl'.subset List.mem_cons_self
    have hb : b ∈ l := hl'.subset (List.mem_cons_of_mem a List.mem_cons_self)
    rw [hinj n hn a ha he.1, hinj m hm b hb he.2]
    exact hl'
  · intro h
    exact h.map flag

/-- When no other package mentions a package's flag, the flags stand as the packages do. -/
theorem dedup_mentions {l : List Pkg} (hl : (l.map Pkg.realname).Nodup) {flag : S8 → S8}
    (hflag : ∀ p ∈ l, fieldargs (bytes p.libs) = some [flag p.realname])
    (hdistinct : ∀ p ∈ l, ∀ q ∈ l, flag p.realname = flag q.realname → p.realname = q.realname) {names : List S8}
    (hnames : ∀ n ∈ names, n ∈ l.map Pkg.realname) (hnodup : names.Nodup)
    (hprivate : ∀ p ∈ l, p.realname ∈ names → ∀ q ∈ l, flag q.realname ∉ (fieldargs (bytes p.libsprivate)).getD [])
    {n m : S8} (hn : n ∈ names) (hm : m ∈ names) :
    [flag n, flag m].Sublist (names.flatMap (mentions l)).dedup ↔ [n, m].Sublist names := by
  have hinj : ∀ a ∈ names, ∀ b ∈ names, flag a = flag b → a = b := by
    intro a ha b hb he
    obtain ⟨p, hp, rfl⟩ := List.mem_map.mp (hnames a ha)
    obtain ⟨q, hq, rfl⟩ := List.mem_map.mp (hnames b hb)
    exact hdistinct p hp q hq he
  let kind (arg : S8) : Bool := decide (arg ∈ names.map flag)
  have hkind : ∀ a ∈ names, kind (flag a) = true := fun a ha => decide_eq_true (List.mem_map_of_mem ha)
  have hone : ∀ a ∈ names, (mentions l a).filter kind = [flag a] := by
    intro a ha
    obtain ⟨p, hp, rfl⟩ := List.mem_map.mp (hnames a ha)
    have hnone : ((fieldargs (bytes p.libsprivate)).getD []).filter kind = [] := by
      rw [List.filter_eq_nil_iff]
      intro x hx hk
      obtain ⟨b, hb, rfl⟩ := List.mem_map.mp (of_decide_eq_true hk)
      obtain ⟨q, hq, rfl⟩ := List.mem_map.mp (hnames b hb)
      exact hprivate p hp ha q hq hx
    rw [mentions_eq hl hp, Pkg.libargs, hflag p hp, List.filter_append, hnone, List.append_nil, Option.getD_some,
      List.filter_cons_of_pos (hkind _ ha), List.filter_nil]
  have hall : (names.flatMap (mentions l)).filter kind = names.map flag := by
    rw [List.filter_flatMap, List.map_eq_flatMap]
    exact List.flatMap_congr hone
  have hmapnodup : (names.map flag).Nodup := hnodup.map_on hinj
  rw [sublist_filter_iff (hkind n hn) (hkind m hm), ← dedup_filter, hall, hmapnodup.dedup]
  exact sublist_map_inj hinj hn hm

/-- Two elements first appear in the order they have without repetitions. -/
theorem sublist_eraseDups_iff {l : List S8} {n m : S8} (hne : n ≠ m) (hn : n ∈ l) (hm : m ∈ l) :
    [n, m].Sublist l.eraseDups ↔ l.idxOf n < l.idxOf m := by
  induction l using List.reverseRecOn with
  | nil => cases hn
  | append_singleton l a ih =>
    rw [eraseDups_snoc]
    by_cases ha : a ∈ l
    · have hmem : ∀ x ∈ l ++ [a], x ∈ l := by
        intro x hx
        rcases List.mem_append.mp hx with hx | hx
        · exact hx
        · exact List.mem_singleton.mp hx ▸ ha
      rw [if_pos ha, List.append_nil, List.idxOf_append_of_mem (hmem n hn), List.idxOf_append_of_mem (hmem m hm)]
      exact ih (hmem n hn) (hmem m hm)
    · have hlen : (l ++ [a]).idxOf a = l.length := by
        rw [List.idxOf_append_of_notMem ha, List.idxOf_cons_self, Nat.add_zero]
      rw [if_neg ha]
      rcases List.mem_append.mp hn with hn' | hn' <;> rcases List.mem_append.mp hm with hm' | hm'
      · rw [List.idxOf_append_of_mem hn', List.idxOf_append_of_mem hm', ← ih hn' hm']
        constructor
        · intro h
          obtain ⟨l₁, l₂, he, h₁, h₂⟩ := List.sublist_append_iff.mp h
          -- the last element is neither of the two
          rcases List.sublist_singleton.mp h₂ with rfl | rfl
          · rw [List.append_nil] at he
            exact he ▸ h₁
          · have hlast := congrArg List.getLast? he
            rw [List.getLast?_concat] at hlast
            exact absurd (Option.some.inj hlast ▸ hm') ha
        · intro h
          exact h.trans (List.sublist_append_left _ _)
      · obtain rfl := List.mem_singleton.mp hm'
        rw [hlen, List.idxOf_append_of_mem hn']
        refine iff_of_true ?_ (List.idxOf_lt_length_of_mem hn')
        exact (List.singleton_sublist.mpr (List.mem_eraseDups.mpr hn')).append (List.Sublist.refl [m])
      · obtain rfl := List.mem_singleton.mp hn'
        rw [hlen, List.idxOf_append_of_mem hm']
        refine iff_of_false ?_ (Nat.not_lt.mpr (Nat.le_of_lt (List.idxOf_lt_length_of_mem hm')))
        intro h
        obtain ⟨l₁, l₂, he, h₁, h₂⟩ := List.sublist_append_iff.mp h
        cases l₁ with
        | nil =>
          have hlen₂ := h₂.length_le
          rw [List.nil_append] at he
          rw [← he] at hlen₂
          simp at hlen₂
        | cons b l₁ =>
          rw [(List.cons.inj he).1] at ha
          exact ha (List.mem_eraseDups.mp (h₁.subset List.mem_cons_self))
      · exact absurd ((List.mem_singleton.mp hn').trans (List.mem_singleton.mp hm').symm) hne

/-- What is printed for --libs. -/
theorem printlibs_written {conf : Config} {st : Optstate} (hlibs : st.libs = true) {l : List Pkg} {w : Fieldwriter}
    (hw : l.foldlM (appendlibs (errbuf st) st.static_) (libswriter conf st) = .ok w) (argcount : Nat) (out : U8buf) :
    (printlibs conf st l argcount).run out = (.ok (argcount + (written w.args).length),
      prints8 out (separated (delimiter w) argcount ((written w.args).map (rendered w)))) := by
  rw [printlibs, if_pos hlibs, hw, printfields]
  simp only [writeargs_written]
  rfl

/-- Only packages of the set list anything. -/
theorem required_source {l : List Pkg} {n : S8} (h : required l n ≠ []) : n ∈ l.map Pkg.realname := by
  unfold required at h
  cases hfind : l.find? (fun p => p.realname == n) with
  | none => rw [hfind] at h; exact absurd rfl h
  | some p =>
    have hpn := List.find?_some hfind
    rw [beq_iff_eq] at hpn
    exact List.mem_map.mpr ⟨p, List.mem_of_find?_eq_some hfind, hpn⟩

/-- The loaded packages are those of the set that are in the unfolded graph. -/
theorem loaded_iff {table : List Pkg} {unfolded : List S8} (hnames : table.map Pkg.realname = unfolded.eraseDups)
    {p : Pkg} : (∃ p' ∈ table, p'.realname = p.realname) ↔ p.realname ∈ unfolded := by
  rw [← List.mem_eraseDups, ← hnames, List.mem_map]

/-- A property of the lists of loaded packages, in the table and in the set. -/
theorem linkorder_iff {table l : List Pkg} (hl : Drawn table l) {unfolded : List S8}
    (hnames : table.map Pkg.realname = unfolded.eraseDups)
    (hclosed : ∀ p ∈ l, ∀ q ∈ l, p.realname ∈ unfolded → p.Lists q → q.realname ∈ unfolded) {flag : S8 → S8}
    {printed : List S8} :
    Linkorder table flag printed ↔
      ∀ p ∈ l, ∀ q ∈ l, p.realname ∈ unfolded → p.Lists q → [flag p.realname, flag q.realname].Sublist printed := by
  have hpkg : ∀ p ∈ l, p.realname ∈ unfolded → ∃ p' ∈ table, p' = { p with flags := p'.flags } := by
    intro p hp hn
    obtain ⟨p', hp', hpn⟩ := (loaded_iff hnames).mpr hn
    obtain ⟨q, hq, he⟩ := hl.mem p' hp'
    have hqn : q.realname = p.realname := by rw [← hpn, he]
    rw [List.inj_on_of_nodup_map hl.distinct hq hp hqn] at he
    exact ⟨p', hp', he⟩
  constructor
  · intro h p hp q hq hn hlists
    obtain ⟨p', hp', he⟩ := hpkg p hp hn
    obtain ⟨q', hq', he'⟩ := hpkg q hq (hclosed p hp q hq hn hlists)
    have h' := h p' hp' q' hq' (by rw [he, he']; exact hlists)
    rw [he, he'] at h'
    exact h'
  · intro h p' hp' q' hq' hlists
    obtain ⟨p, hp, he⟩ := hl.mem p' hp'
    obtain ⟨q, hq, he'⟩ := hl.mem q' hq'
    have hn : p.realname ∈ unfolded := (loaded_iff hnames).mp ⟨p', hp', by rw [he]⟩
    have h' := h p hp q hq hn (by rw [he, he'] at hlists; exact hlists)
    rw [he, he']
    exact h'

/-- For any processor that has processed nothing, with the default traversal, any acyclic
    package set in which each package's Libs is one -l flag of its own, and any arguments
    that are processed without a failure: what --libs --static prints is the arguments
    `written w.args`. Each flag stands before those of the packages that its package lists
    exactly when this holds of the last places of the flags, when Libs and Libs.private of
    the packages are put one after another in the order of the first chains to them. When
    no package's flag is in a Libs.private, that is when the first chain to a package comes
    before the first chains to those it lists. -/
theorem printlibs_order_iff (hf : Fresh proc) (ht : Traverses proc) (h : processargs mapfile proc args = .ok proc')
    {l : List Pkg} (hl : Drawn proc'.pkgs.list l) (hacyclic : Acyclic (required l)) {flag : S8 → S8}
    (hflag : ∀ p ∈ l, fieldargs (bytes p.libs) = some [flag p.realname] ∧ Libname (flag p.realname))
    (hdistinct : ∀ p ∈ l, ∀ q ∈ l, flag p.realname = flag q.realname → p.realname = q.realname) {conf : Config}
    {st : Optstate} (hlibs : st.libs = true) (hstatic : st.static_ = true) (hfilter : st.filterl = .any)
    {w : Fieldwriter} (hw : proc'.pkgs.list.foldlM (appendlibs (errbuf st) true) (libswriter conf st) = .ok w) :
    (∀ argcount out, (printlibs conf st proc'.pkgs.list argcount).run out = (.ok (argcount + (written w.args).length),
        prints8 out (separated (delimiter w) argcount ((written w.args).map (rendered w))))) ∧
      (∃ unfolded, Unfolds (required l) (rootnames args) unfolded) ∧
      ∀ unfolded, Unfolds (required l) (rootnames args) unfolded →
        (Linkorder proc'.pkgs.list flag (written w.args) ↔
          ∀ p ∈ l, ∀ q ∈ l, p.realname ∈ unfolded → p.Lists q →
            [flag p.realname, flag q.realname].Sublist (unfolded.eraseDups.flatMap (mentions l)).dedup) ∧
        ((∀ p ∈ l, p.realname ∈ unfolded → ∀ q ∈ l,
            flag q.realname ∉ (fieldargs (bytes p.libsprivate)).getD []) →
          (Linkorder proc'.pkgs.list flag (written w.args) ↔
            ∀ p ∈ l, ∀ q ∈ l, p.realname ∈ unfolded → p.Lists q →
              unfolded.idxOf p.realname < unfolded.idxOf q.realname)) := by
  refine ⟨printlibs_written hlibs (by rw [hstatic]; exact hw), ?_, ?_⟩
  · exact unfolds_exists hacyclic (fun n hn => required_source hn) _
  · intro unfolded hunfolded
    have hnames := loadorder hf ht h hl hacyclic hunfolded
    have hclosed : ∀ p ∈ l, ∀ q ∈ l, p.realname ∈ unfolded → p.Lists q → q.realname ∈ unfolded := by
      intro p hp q hq hn hlists
      rw [← List.mem_eraseDups, ← hnames] at hn ⊢
      exact (processruns_search hf h hl).seen_closed (traverses_deep hf ht) (processruns_end h) rfl hn
        ((mem_required hl.distinct hp hq).mpr hlists)
    have hgeneral : Linkorder proc'.pkgs.list flag (written w.args) ↔
        ∀ p ∈ l, ∀ q ∈ l, p.realname ∈ unfolded → p.Lists q →
          [flag p.realname, flag q.realname].Sublist (unfolded.eraseDups.flatMap (mentions l)).dedup := by
      rw [linkorder_iff hl hnames hclosed, ← hnames, ← flatMap_mentions hl]
      refine forall₂_congr fun p hp => forall₂_congr fun q hq => forall₂_congr fun _ _ => ?_
      exact written_libs hfilter hw (hflag p hp).2 (hflag q hq).2
    refine ⟨hgeneral, fun hprivate => ?_⟩
    rw [hgeneral]
    refine forall₂_congr fun p hp => forall₂_congr fun q hq => forall₂_congr fun hn hlists => ?_
    have hm := hclosed p hp q hq hn hlists
    have hne : p.realname ≠ q.realname := by
      intro he
      refine hacyclic p.realname (.single ?_)
      have hedge := (mem_required hl.distinct hp hq).mpr hlists
      rwa [← he] at hedge
    have hnodup : unfolded.eraseDups.Nodup := hnames ▸ (drawn_self hf h).distinct
    have hin : ∀ n ∈ unfolded.eraseDups, n ∈ l.map Pkg.realname := fun n hn => hl.names (by rw [hnames]; exact hn)
    have hprivate' : ∀ p ∈ l, p.realname ∈ unfolded.eraseDups → ∀ q ∈ l,
        flag q.realname ∉ (fieldargs (bytes p.libsprivate)).getD [] :=
      fun p hp hn => hprivate p hp (List.mem_eraseDups.mp hn)
    rw [dedup_mentions hl.distinct (fun p hp => (hflag p hp).1) hdistinct hin hnodup hprivate'
      (List.mem_eraseDups.mpr hn) (List.mem_eraseDups.mpr hm)]
    exact sublist_eraseDups_iff hne hn hm

/-- Two libraries, the first one on top of the second one. -/
def linkfiles (path : S8) : Filemap :=
  if path == S "/p/a.pc\x00" then .ok (S "Name: a\nVersion: 1\nDescription:\nRequires: b\nLibs: -la\n")
  else if path == S "/p/b.pc\x00" then .ok (S "Name: b\nVersion: 1\nDescription:\nLibs: -lb\n")
  else .notfound

def linkconf : Config := ⟨[], [], S "/p", none, [], [], none, none, false, 0x3a⟩

/-- With --libs --static. -/
def linkstate : Optstate := { newoptstate linkconf with libs := true, static_ := true }

/-- The writer of what is printed. -/
def linkwriter (proc : Processor) : Except Fail Fieldwriter :=
  proc.pkgs.list.foldlM (appendlibs (errbuf linkstate) true) (libswriter linkconf linkstate)

/-- Each package lists what it should and has its own flag, and this is printed. -/
def linked (names printed : List S8) (proc : Processor) : Bool :=
  proc.pkgs.list.map Pkg.realname == names &&
    proc.pkgs.list.all (fun p => p.required == (if p.realname == S "a" then [S "b"] else []) &&
      fieldargs (bytes p.libs) == some [S "-l" ++ p.realname] && bytes p.libsprivate == []) &&
    (linkwriter proc).toOption.any fun w => written w.args == printed

/-- What a run over these files has, when it can be evaluated. -/
structure Linkrun (args names printed : List S8) (proc' : Processor) (w : Fieldwriter) : Prop where
  run : processargs linkfiles cyclicproc args = .ok proc'
  names : proc'.pkgs.list.map Pkg.realname = names
  lists : ∀ p ∈ proc'.pkgs.list, p.required = if p.realname = S "a" then [S "b"] else []
  libs : ∀ p ∈ proc'.pkgs.list, fieldargs (bytes p.libs) = some [S "-l" ++ p.realname]
  libsprivate : ∀ p ∈ proc'.pkgs.list, bytes p.libsprivate = []
  writer : linkwriter proc' = .ok w
  printed : written w.args = printed

theorem linkrun (args names printed : List S8)
    (h : (args.foldlM (processN linkfiles 30) cyclicproc).any (linked names printed) = true) :
    ∃ proc' w, Linkrun args names printed proc' w := by
  obtain ⟨proc', hC, hrun⟩ := processargs_eval linkfiles cyclicproc args 30 h
  simp only [linked, Bool.and_eq_true, List.all_eq_true, beq_iff_eq] at hC
  obtain ⟨⟨hnames, hall⟩, hw⟩ := hC
  cases hwriter : linkwriter proc' with
  | error f => rw [hwriter] at hw; cases hw
  | ok w =>
    rw [hwriter] at hw
    exact ⟨proc', w, hrun, hnames, fun p hp => (hall p hp).1.1, fun p hp => (hall p hp).1.2, fun p hp => (hall p hp).2,
      hwriter, beq_iff_eq.mp hw⟩

theorem Linkrun.acyclic {args names printed : List S8} {proc' : Processor} {w : Fieldwriter}
    (h : Linkrun args names printed proc' w) : Acyclic (required proc'.pkgs.list) := by
  refine acyclic_of_rank (fun n => if n = S "a" then 1 else 0) ?_
  intro n m hm
  obtain ⟨p, hp, rfl⟩ := List.mem_map.mp (required_source (List.ne_nil_of_mem hm))
  have hdistinct := (drawn_self (fresh_newprocessor _ _ _) h.run).distinct
  obtain ⟨q, hq, rfl⟩ := List.mem_map.mp (required_names hm)
  have hlists := mem_pkgrequired.mpr ((mem_required hdistinct hp hq).mp hm)
  rw [h.lists p hp] at hlists
  split at hlists
  · rename_i ha
    rw [List.mem_singleton.mp hlists, ha]
    decide
  · cases hlists

/-- Listed first, a package comes before what it lists. -/
theorem printlibs_order_iff_chain : ∃ proc' w, Linkrun [S "a"] [S "a", S "b"] [S "-la", S "-lb"] proc' w ∧
    ∀ unfolded, Unfolds (required proc'.pkgs.list) (rootnames [S "a"]) unfolded →
      (Linkorder proc'.pkgs.list (S "-l" ++ ·) (written w.args) ↔
        ∀ p ∈ proc'.pkgs.list, ∀ q ∈ proc'.pkgs.list, p.realname ∈ unfolded → p.Lists q →
          unfolded.idxOf p.realname < unfolded.idxOf q.realname) := by
  obtain ⟨proc', w, h⟩ := linkrun [S "a"] [S "a", S "b"] [S "-la", S "-lb"] (by decide +kernel)
  have hne : ∀ p ∈ proc'.pkgs.list, p.realname ≠ [] := by
    intro p hp he
    have hmem := List.mem_map_of_mem (f := Pkg.realname) hp
    rw [h.names, he] at hmem
    revert hmem
    decide
  have hw : proc'.pkgs.list.foldlM (appendlibs (errbuf linkstate) true) (libswriter linkconf linkstate) = .ok w :=
    h.writer
  refine ⟨proc', w, h, fun unfolded hunfolded => ?_⟩
  refine ((printlibs_order_iff (fresh_newprocessor _ _ _) (traverses_newprocessor _ _ _) h.run
    (drawn_self (fresh_newprocessor _ _ _) h.run) h.acyclic (fun p hp => ⟨h.libs p hp, p.realname, hne p hp, rfl⟩)
    (fun p _ q _ he => List.append_cancel_left he) (by rfl) (by rfl) (by rfl) hw).2.2 unfolded hunfolded).2 ?_
  intro p hp _ q _ hmem
  rw [h.libsprivate p hp, fieldargs, dif_pos rfl] at hmem
  cases hmem

/-- Named first, a package comes before the one that is on top of it. -/
theorem flags_misordered : ∃ proc' w, Linkrun [S "b", S "a"] [S "b", S "a"] [S "-lb", S "-la"] proc' w ∧
    Acyclic (required proc'.pkgs.list) ∧ ¬ Linkorder proc'.pkgs.list (S "-l" ++ ·) (written w.args) := by
  obtain ⟨proc', w, h⟩ := linkrun [S "b", S "a"] [S "b", S "a"] [S "-lb", S "-la"] (by decide +kernel)
  refine ⟨proc', w, h, h.acyclic, fun hlink => ?_⟩
  obtain ⟨b, hb, hbn⟩ := List.mem_map.mp (show S "b" ∈ proc'.pkgs.list.map Pkg.realname by rw [h.names]; decide)
  obtain ⟨a, ha, han⟩ := List.mem_map.mp (show S "a" ∈ proc'.pkgs.list.map Pkg.realname by rw [h.names]; decide)
  have hlists : a.Lists b := by
    apply mem_pkgrequired.mp
    rw [h.lists a ha, if_pos han, hbn]
    exact List.mem_singleton_self _
  have hsub := hlink a ha b hb hlists
  rw [h.printed, han, hbn] at hsub
  revert hsub
  decide

end GnuWindows.PkgConfig
