/-
  GnuWindows.PkgConfig.Frames — what the frames of the processor read.

  Nothing is read but what the arguments and the lists of loaded packages say. So a property
  of items that the arguments have, and that what a token loads has when the token does
  (`Kept`), is one of every item a run reads (`Reads`), whatever the traversal.

  Proved: the turns that fail, as `procStep_cases` has the others (`procStep_error`); the
  rules that carry `Reads` through a turn and from one argument to the next.
-/
import GnuWindows.PkgConfig.ProcessProofs

namespace GnuWindows.PkgConfig

open GnuWindows.Lib.BoundedStack

variable {mapfile : S8 → Filemap} {proc proc' : Processor}

/-! ## The turns that fail -/

theorem procpackage_error {st : Procrun} {tok tail : S8} {f : Fail}
    (h : procpackage mapfile proc st tok tail = .error f) (hl : ∀ p ∈ st.pkgs.list, p.contents.isSome = true) :
    (f = failmaxrecurse proc.err tok ∧ 254 ≤ st.below.length) ∨
    proc.load mapfile (pathtorealname tok) tok = .error f := by
  simp only [procpackage] at h
  rcases st.pkgs.locate_cases (pathtorealname tok) with ⟨i, hi, hloc⟩ | ⟨-, hlist, hidx⟩
  · obtain ⟨p, hp, -⟩ := findname_some hi
    have hget : st.pkgs.get i = p := by simp [Pkgs.get, List.getD, hp]
    simp only [hloc, hget] at h
    rw [if_pos (hl p (List.mem_of_getElem? hp))] at h
    split at h
    · split at h
      · rename_i hcap
        cases h
        exact Or.inl ⟨rfl, Nat.le_of_succ_le hcap⟩
      · cases h
    · cases h
  · have hget : (st.pkgs.locate (pathtorealname tok)).1.get (st.pkgs.locate (pathtorealname tok)).2 =
        { Pkg.zero with realname := pathtorealname tok } := by
      simp [Pkgs.get, hlist, hidx]
    simp only [hget] at h
    rw [if_neg (by simp [Pkg.zero])] at h
    split at h
    · rename_i f' hf
      cases h
      exact Or.inr hf
    · split at h
      · split at h
        · rename_i hcap
          cases h
          exact Or.inl ⟨rfl, hcap⟩
        · cases h
      · cases h

/-- The four turns that fail, as the ones that go on (`procStep_cases`). -/
theorem procStep_error {st : Procrun} {f : Fail} (h : procStep mapfile proc st = .stop (.error f)) :
    ((nexttoken st.top.arg).1 = [] ∧ st.top.op ≠ .ERR ∧ st.below ≠ [] ∧
      f = procfail proc.err st.top.op (st.top.last.map st.pkgs.get)) ∨
    ((nexttoken st.top.arg).1 ≠ [] ∧ ∃ hop : st.top.op ≠ .ERR, proc.ignore_versions = false ∧
      validcompare st.top.op (compareversions
        (bytes (st.pkgs.get (st.top.last.get (st.top.pending hop))).version) (nexttoken st.top.arg).1) = false ∧
      f = failversion proc.err (st.pkgs.get (st.top.last.get (st.top.pending hop))) st.top.op
        (nexttoken st.top.arg).1) ∨
    ((nexttoken st.top.arg).1 ≠ [] ∧ st.top.op = .ERR ∧ parseop (nexttoken st.top.arg).1 ≠ .ERR ∧
      st.top.last = none ∧ f = failoperator proc.err (nexttoken st.top.arg).1) ∨
    ((nexttoken st.top.arg).1 ≠ [] ∧ st.top.op = .ERR ∧ parseop (nexttoken st.top.arg).1 = .ERR ∧
      procpackage mapfile proc st (nexttoken st.top.arg).1 (nexttoken st.top.arg).2 = .error f) := by
  obtain ⟨s, below, pkgs⟩ := st
  simp only [procStep] at h
  split at h
  · rename_i htok
    cases below with
    | nil => cases h
    | cons s' below =>
      simp only at h
      split at h
      · rename_i hop
        cases h
        exact Or.inl ⟨htok, hop, List.cons_ne_nil _ _, rfl⟩
      · cases h
  · rename_i htok
    split at h
    · rename_i hop
      split at h
      · rename_i hvalid
        cases h
        simp only [Bool.and_eq_true, Bool.not_eq_true'] at hvalid
        exact Or.inr (Or.inl ⟨htok, hop, hvalid.1, hvalid.2, rfl⟩)
      · cases h
    · rename_i hop
      split at h
      · rename_i hparse
        split at h
        · rename_i hlast
          cases h
          exact Or.inr (Or.inr (Or.inl ⟨htok, Decidable.not_not.mp hop, hparse, hlast, rfl⟩))
        · cases h
      · rename_i hparse
        refine Or.inr (Or.inr (Or.inr ⟨htok, Decidable.not_not.mp hop, Decidable.not_not.mp hparse, ?_⟩))
        simp only
        cases hp : procpackage mapfile proc ⟨s, below, pkgs⟩ (nexttoken s.arg).1 (nexttoken s.arg).2 with
        | error f' => rw [hp] at h; cases h; rfl
        | ok st'' => rw [hp] at h; cases h

/-! ## The items of a frame -/

section

variable {l : List Pkg} {s : Procstate} (L : List S8)

theorem frameitems_version {i : Nat} (htok : (nexttoken s.arg).1 ≠ []) (hop : s.op ≠ .ERR) (hi : s.last = some i) :
    frameitems l s L = .constraint (nameat l i) s.op (nexttoken s.arg).1 ::
      items none .ERR (tokens (nexttoken s.arg).2 ++ L) := by
  simp only [frameitems, hi, Option.map_some]
  rw [tokens_cons htok, List.cons_append, items_version hop]
  rfl

theorem frameitems_operator {i : Nat} (htok : (nexttoken s.arg).1 ≠ []) (hop : s.op = .ERR)
    (hparse : parseop (nexttoken s.arg).1 ≠ .ERR) (hi : s.last = some i) (hpending : _) :
    frameitems l s L =
      frameitems l ⟨(nexttoken s.arg).2, some i, s.depth, s.flags, parseop (nexttoken s.arg).1, hpending⟩ L := by
  simp only [frameitems, hi, hop, Option.map_some]
  rw [tokens_cons htok, List.cons_append, items_operator hparse]

/-- An operator with no package before it. -/
theorem frameitems_unexpected (htok : (nexttoken s.arg).1 ≠ []) (hop : s.op = .ERR)
    (hparse : parseop (nexttoken s.arg).1 ≠ .ERR) (hlast : s.last = none) :
    frameitems l s L = [.unexpected (nexttoken s.arg).1] := by
  simp only [frameitems, hlast, hop, Option.map_none]
  rw [tokens_cons htok, List.cons_append]
  simp [items, hparse]

/-- An operator with nothing after it. -/
theorem frameitems_dangling (htok : (nexttoken s.arg).1 = []) (hop : s.op ≠ .ERR) :
    frameitems l s [] = [.dangling s.op] := by
  simp only [frameitems]
  rw [tokens_nil htok, List.append_nil]
  simp [items, hop]

end

/-- The bottom frame of an argument reads what the last frame left and the argument. -/
theorem frameitems_frame (l : List Pkg) (proc : Processor) (arg : S8) (later : List S8) :
    frameitems l (proc.frame arg) later = frameitems l (proc.frame []) (tokens arg ++ later) := by
  simp only [frameitems, Processor.frame]
  rw [tokens_nil (s := []) rfl, List.nil_append]

/-- Before the first argument. -/
theorem frameitems_fresh (hf : Fresh proc) (l : List Pkg) (args : List S8) :
    frameitems l (proc.frame []) (args.flatMap tokens) = argitems args := by
  simp only [frameitems, Processor.frame, hf.last, hf.op, tokens_nil (s := []) rfl, List.nil_append, Option.map_none]
  rfl

/-! ## What is read -/

variable {load : S8 → S8 → Except Fail Pkg} {C : List Pkg → Item → Prop} {later : List S8} {l : List Pkg}
  {frames : List Procstate}

/-- It stays, and the lists of what a token loads have it when the token does. -/
structure Kept (load : S8 → S8 → Except Fail Pkg) (C : List Pkg → Item → Prop) : Prop where
  grows : ∀ {l l' : List Pkg} {item : Item}, Grows l l' → C l item → C l' item
  loads : ∀ {l : List Pkg} {tok : S8} {q : Pkg} (flags : Flags) {item : Item}, C l (.pkg tok) →
    load (pathtorealname tok) tok = .ok q →
    item ∈ requirements q.requires ∨ item ∈ requirements q.requiresprivate → C (l ++ [addflags flags q]) item

structure Reads (C : List Pkg → Item → Prop) (later : List S8) (l : List Pkg) (frames : List Procstate) : Prop where
  contents : ∀ p ∈ l, p.contents.isSome = true
  lasts : ∀ s ∈ frames, ∀ i, s.last = some i → i < l.length
  lists : ∀ p ∈ l, ∀ item, item ∈ requirements p.requires ∨ item ∈ requirements p.requiresprivate → C l item
  items : AllFrames later (fun s L => ∀ item ∈ frameitems l s L, C l item) frames

/-- The top frame reads on. -/
theorem Reads.retop {s s' : Procstate} {below : List Procstate} (h : Reads C later l (s :: below))
    (hlast : ∀ i, s'.last = some i → i < l.length)
    (hsub : ∀ L, ∀ item ∈ frameitems l s' L, item ∈ frameitems l s L) : Reads C later l (s' :: below) where
  contents := h.contents
  lasts x hx i hi := by
    rcases List.mem_cons.mp hx with rfl | hx
    · exact hlast i hi
    · exact h.lasts x (List.mem_cons_of_mem _ hx) i hi
  lists := h.lists
  items := ⟨fun item hitem => h.items.1 item (hsub _ item hitem), h.items.2⟩

/-- The packages and the frames change together. -/
theorem Reads.package (hC : Kept load C) (new : List Procstate) {l' : List Pkg} {s : Procstate}
    {below : List Procstate} {tok tail : S8} {i : Nat} (h : Reads C later l (s :: below)) (hg : Grows l l')
    (hi : i < l'.length) (hstep : ∀ L, frameitems l s L = .pkg tok :: frameitems l' (s.after tail i) L)
    (hcontents : ∀ p ∈ l', p.contents.isSome = true)
    (hlists : ∀ p ∈ l', ∀ item, item ∈ requirements p.requires ∨ item ∈ requirements p.requiresprivate → C l' item)
    (hnew : ∀ f ∈ new, f.last = none ∧ ∀ item ∈ frameitems l' f [], C l' item) :
    Reads C later l' (new ++ s.after tail i :: below) where
  contents := hcontents
  lasts x hx j hj := by
    rcases List.mem_append.mp hx with hx | hx
    · rw [(hnew x hx).1] at hj
      cases hj
    · rcases List.mem_cons.mp hx with rfl | hx
      · obtain rfl := Option.some.inj hj
        exact hi
      · exact Nat.lt_of_lt_of_le (h.lasts x (List.mem_cons_of_mem _ hx) j hj) hg.length_le
  lists := hlists
  items := by
    refine AllFrames.append (List.cons_ne_nil _ _) (fun f hf => (hnew f hf).2) ⟨fun item hitem => ?_, ?_⟩
    · exact hC.grows hg (h.items.1 item (by rw [hstep]; exact List.mem_cons_of_mem _ hitem))
    · refine h.items.2.imp fun x hx L hread item hitem => ?_
      rw [frameitems_grows hg (h.lasts x (List.mem_cons_of_mem _ hx))] at hitem
      exact hC.grows hg (hread item hitem)

/-- The packages after one of them has more flags. -/
theorem Reads.flagged (hC : Kept load C) (h : Reads C later l frames) (i : Nat) (flags : Flags) :
    (∀ x ∈ l.modify i (addflags flags), x.contents.isSome = true) ∧
    ∀ x ∈ l.modify i (addflags flags), ∀ item,
      item ∈ requirements x.requires ∨ item ∈ requirements x.requiresprivate →
        C (l.modify i (addflags flags)) item := by
  have hmem : ∀ x ∈ l.modify i (addflags flags), ∃ y ∈ l, y.Le x := fun x hx => by
    obtain ⟨j, hj⟩ := List.mem_iff_getElem?.mp hx
    obtain ⟨y, hy, hle⟩ := le_addflags hj
    exact ⟨y, List.mem_of_getElem? hy, hle⟩
  constructor
  · intro x hx
    obtain ⟨y, hy, hle⟩ := hmem x hx
    rw [hle.1]
    exact h.contents y hy
  · intro x hx item hitem
    obtain ⟨y, hy, hle⟩ := hmem x hx
    rw [hle.requires, hle.requiresprivate] at hitem
    exact hC.grows (grows_addflags l i flags) (h.lists y hy item hitem)

/-- The packages after one more is loaded. -/
theorem Reads.loaded {tok : S8} {q : Pkg} (hC : Kept load C) (h : Reads C later l frames) (hread : C l (.pkg tok))
    (hq : load (pathtorealname tok) tok = .ok q) (hcontents : q.contents.isSome = true) (flags : Flags) :
    (∀ x ∈ l ++ [addflags flags q], x.contents.isSome = true) ∧
    ∀ x ∈ l ++ [addflags flags q], ∀ item,
      item ∈ requirements x.requires ∨ item ∈ requirements x.requiresprivate → C (l ++ [addflags flags q]) item := by
  constructor
  · intro x hx
    rcases List.mem_append.mp hx with hx | hx
    · exact h.contents x hx
    · obtain rfl := List.mem_singleton.mp hx
      exact hcontents
  · intro x hx item hitem
    rcases List.mem_append.mp hx with hx | hx
    · exact hC.grows (grows_append l [addflags flags q]) (h.lists x hx item hitem)
    · obtain rfl := List.mem_singleton.mp hx
      exact hC.loads flags hread hq hitem

theorem procpackage_reads (hC : Kept (proc.load mapfile) C) {st st' : Procrun}
    (h : Reads C later st.pkgs.list (st.top :: st.below)) (htok : (nexttoken st.top.arg).1 ≠ [])
    (hop : st.top.op = .ERR) (hparse : parseop (nexttoken st.top.arg).1 = .ERR)
    (hs : procpackage mapfile proc st (nexttoken st.top.arg).1 (nexttoken st.top.arg).2 = .ok st') :
    Reads C later st'.pkgs.list (st'.top :: st'.below) := by
  obtain ⟨s, below, pkgs⟩ := st
  simp only at h htok hop hparse hs
  rcases procpackage_cases hs h.contents with ⟨i, p, hp, hn, hlist, hframes⟩ | ⟨q, -, hq, hlist, hframes⟩
  · simp only at hp hn hlist hframes
    have hp' : (pkgs.list.modify i (addflags s.flags))[i]? = some (addflags s.flags p) := by
      rw [List.getElem?_modify, hp]; simp
    obtain ⟨hcontents, hlists⟩ := h.flagged hC i s.flags
    have hpackage := fun new => h.package hC new (grows_addflags pkgs.list i s.flags)
      (List.getElem?_eq_some_iff.mp hp').1
      (frameitems_package pkgs.list (pkgs.list.modify i (addflags s.flags)) htok hop hparse
        ((nameat_some hp').trans hn)) hcontents hlists
    rw [hlist]
    split at hframes
    · -- promoted to public
      obtain ⟨-, htop, hbelow⟩ := hframes
      rw [hbelow]
      refine hpackage [st'.top] fun f hf => ?_
      rw [List.mem_singleton.mp hf, htop, frameitems_start]
      exact ⟨rfl, fun item hitem => hlists _ (List.mem_of_getElem? hp') item (Or.inl hitem)⟩
    · rw [hframes.1, hframes.2]
      exact hpackage [] (List.forall_mem_nil _)
  · simp only at hq hlist hframes
    obtain ⟨hqn, hqc, -⟩ := (loadpackage_rest _ _ _ _ _ _).of_ok hq
    have hq' : (pkgs.list ++ [addflags s.flags q])[pkgs.list.length]? = some (addflags s.flags q) := by simp
    have hread : C pkgs.list (.pkg (nexttoken s.arg).1) := by
      refine h.items.1 _ ?_
      rw [frameitems_package pkgs.list _ htok hop hparse ((nameat_some hq').trans hqn)]
      exact List.mem_cons_self
    obtain ⟨hcontents, hlists⟩ := h.loaded hC hread hq hqc s.flags
    have hpackage := fun new => h.package hC new (grows_append pkgs.list [addflags s.flags q])
      (List.getElem?_eq_some_iff.mp hq').1
      (frameitems_package pkgs.list _ htok hop hparse ((nameat_some hq').trans hqn)) hcontents hlists
    rw [hlist]
    split at hframes
    · obtain ⟨-, htop, hbelow⟩ := hframes
      rw [hbelow]
      refine hpackage [st'.top, .start (bytes q.requiresprivate) (s.depth + 1) .none] fun f hf => ?_
      rcases List.mem_pair.mp hf with rfl | rfl
      · rw [htop, frameitems_start]
        exact ⟨rfl, fun item hitem => hlists _ (List.mem_of_getElem? hq') item (Or.inl hitem)⟩
      · rw [frameitems_start]
        exact ⟨rfl, fun item hitem => hlists _ (List.mem_of_getElem? hq') item (Or.inr hitem)⟩
    · rw [hframes.1, hframes.2]
      exact hpackage [] (List.forall_mem_nil _)

/-- One turn of the loop keeps it. -/
theorem procStep_reads (hC : Kept (proc.load mapfile) C) {st st' : Procrun}
    (h : Reads C later st.pkgs.list (st.top :: st.below)) (hs : procStep mapfile proc st = .go st') :
    Reads C later st'.pkgs.list (st'.top :: st'.below) := by
  have hstep := procStep_cases hs
  obtain ⟨s, below, pkgs⟩ := st
  simp only at h hstep
  rcases hstep with ⟨-, -, hbelow, hpkgs⟩ | ⟨htok, hop, -, rfl⟩ | ⟨htok, hop, hparse, i, hlast, rfl⟩ |
    ⟨htok, hop, hparse, hp⟩
  · rw [hpkgs]
    rw [hbelow] at h
    exact ⟨h.contents, fun x hx => h.lasts x (List.mem_cons_of_mem _ hx), h.lists, h.items.2⟩
  · obtain ⟨i, hlast⟩ := Option.isSome_iff_exists.mp (s.pending hop)
    refine h.retop (fun i hi => by cases hi) fun L item hitem => ?_
    rw [frameitems_version L htok hop hlast]
    exact List.mem_cons_of_mem _ hitem
  · refine h.retop (fun j hj => ?_) fun L item hitem => ?_
    · obtain rfl := Option.some.inj hj
      exact h.lasts s List.mem_cons_self _ hlast
    · rw [frameitems_operator L htok hop hparse hlast]
      exact hitem
  · exact procpackage_reads hC h htok hop hparse hp

/-- What the bottom frame is at the start of an argument. -/
theorem Reads.start {arg : S8} (h : Reads C (tokens arg ++ later) proc.pkgs.list [proc.frame []]) :
    Reads C later proc.pkgs.list [proc.frame arg] where
  contents := h.contents
  lasts x hx i hi := by
    obtain rfl := List.mem_singleton.mp hx
    exact h.lasts (proc.frame []) (List.mem_singleton_self _) i hi
  lists := h.lists
  items := by
    refine ⟨fun item hitem => h.items.1 item ?_, trivial⟩
    rw [if_pos rfl, frameitems_frame] at hitem
    exact hitem

/-- And at its end. -/
theorem Reads.stop {s : Procstate} (h : Reads C later l [s]) (htok : (nexttoken s.arg).1 = []) (depth : Nat)
    (flags : Flags) : Reads C later l [⟨[], s.last, depth, flags, s.op, s.pending⟩] where
  contents := h.contents
  lasts x hx i hi := by
    obtain rfl := List.mem_singleton.mp hx
    exact h.lasts s (List.mem_singleton_self _) i hi
  lists := h.lists
  items := by
    refine ⟨fun item hitem => h.items.1 item ?_, trivial⟩
    rw [if_pos rfl] at hitem ⊢
    unfold frameitems at hitem ⊢
    rw [tokens_nil htok]
    rwa [tokens_nil (s := []) rfl] at hitem

/-- From one argument to the next. -/
theorem process_reads (hC : Kept (proc.load mapfile) C) {arg : S8}
    (h : Reads C (tokens arg ++ later) proc.pkgs.list [proc.frame []]) (hp : process mapfile proc arg = .ok proc') :
    Reads C later proc'.pkgs.list [proc'.frame []] := by
  have hrun := (procMachine mapfile proc).run_inv
    (I := fun st => Reads C later st.pkgs.list (st.top :: st.below))
    (Q := fun r => ∀ e, r = .ok e → Reads C later e.pkgs.list [⟨[], e.last, 0, ⟨true, true⟩, e.op, e.pending⟩])
    (fun st st' hst hstep => procStep_reads hC hst hstep) ?_ ⟨proc.frame arg, [], proc.pkgs⟩ h.start
  · unfold process at hp
    split at hp
    · cases hp
    · rename_i e he
      cases hp
      exact hrun e he
  · intro st r hst hstep e he
    subst he
    obtain ⟨htok, hbelow, rfl⟩ := procStep_ok hstep
    rw [hbelow] at hst
    exact hst.stop htok _ _

/-- Before the first argument there is what the arguments say. -/
theorem Reads.fresh (hf : Fresh proc) {args : List S8} (h : ∀ item ∈ argitems args, C [] item) :
    Reads C (args.flatMap tokens) proc.pkgs.list [proc.frame []] := by
  have hl : proc.pkgs.list = [] := by rw [hf.pkgs]; rfl
  rw [hl]
  refine ⟨List.forall_mem_nil _, fun x hx i hi => ?_, List.forall_mem_nil _, ⟨fun item hitem => ?_, trivial⟩⟩
  · obtain rfl := List.mem_singleton.mp hx
    have hi : proc.last = some i := hi
    rw [hf.last] at hi
    cases hi
  · rw [if_pos rfl, frameitems_fresh hf] at hitem
    exact h item hitem

end GnuWindows.PkgConfig
