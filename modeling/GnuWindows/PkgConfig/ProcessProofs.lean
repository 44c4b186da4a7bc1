/-
  GnuWindows.PkgConfig.ProcessProofs — what `process` loads, marks and checks.

  The invariant (`Inv`): every item of the arguments and of the lists of every loaded
  package is met, or still to be read in a frame with enough flags; and what frames still
  ask for, and what is loaded, is reachable with the flags it has. A frame that waits
  keeps the package its operator belongs to, so no constraint is lost or moved.

  Proved:
  - `procStep_inv`: one turn of the loop keeps the invariant.
-/
import GnuWindows.Lib.Hoare
import GnuWindows.PkgConfig.ParseProofs
import GnuWindows.PkgConfig.Requirements

namespace GnuWindows.PkgConfig

open GnuWindows.Lib.BoundedStack
open GnuWindows.Lib.Hoare (Ends)

/-! ## What loading gives -/

theorem assign_rest {pkg pkg' : Pkg} {es : List Entry} (h : assign pkg es = .ok pkg') :
    pkg'.contents = pkg.contents ∧ pkg'.flags = pkg.flags := by
  induction es generalizing pkg with
  | nil => cases h; exact ⟨rfl, rfl⟩
  | cons e es ih =>
    rw [assign] at h
    split at h
    · split at h
      · cases h
      · have := ih h; exact this
    · split at h
      · split at h
        · cases h
        · have := ih h; exact this
      · exact ih h

theorem parsepackage_rest {src : S8} {pkg : Pkg} (h : parsepackage src = .ok pkg) :
    pkg.contents = some src ∧ pkg.flags = .none := by
  rw [parsepackage_entries] at h
  exact assign_rest h

variable {mapfile : S8 → Filemap} {proc : Processor}

theorem findpackage_rest (err : Errbuf) (dirs : Search) (tok : S8) :
    Ends (findpackage mapfile err dirs tok) (fun pkg => pkg.contents.isSome = true ∧ pkg.flags = .none)
      fun _ => True := by
  unfold findpackage
  refine Ends.bind (.intro (fun _ _ => trivial) fun _ _ => trivial) fun found (_ : True) => ?_
  simp only
  split
  · exact Ends.error trivial
  · exact Ends.error trivial
  · rename_i pkg hparse
    obtain ⟨hc, hf⟩ := parsepackage_rest hparse
    split
    · exact Ends.error trivial
    · exact Ends.ok ⟨by simp [hc], hf⟩

theorem setprefix_rest (p : Pkg) : ( setprefix p).contents = p.contents ∧ ( setprefix p).flags = p.flags := by
  simp only [ setprefix]
  split <;> exact ⟨rfl, rfl⟩

/-- Expansion rewrites the fields only. -/
theorem expandmerge_rest (err : Errbuf) (global : Env) (base update : Pkg) :
    Ends (expandmerge err global base update)
      (fun p => p.realname = base.realname ∧ p.contents = update.contents ∧ p.flags = update.flags)
      fun _ => True := by
  refine Ends.foldlM (?_) ⟨rfl, rfl, rfl⟩
  intro i _ p hp
  simp only [expandfield]
  split
  · exact Ends.error trivial
  · exact Ends.ok hp

theorem loadpackage_rest (err : Errbuf) (global : Env) (dirs : Search) (define : Bool) (base : Pkg) (tok : S8) :
    Ends (loadpackage mapfile err global dirs define base tok)
      (fun p => p.realname = base.realname ∧ p.contents.isSome = true ∧ p.flags = .none) fun _ => True := by
  refine (findpackage_rest err dirs tok).bind fun newpkg ⟨hc, hf⟩ => ?_
  refine (expandmerge_rest err global base _).mono (fun p ⟨h1, h2, h3⟩ => ⟨h1, ?_, ?_⟩) fun _ _ => trivial
  · rw [h2]; split
    · rw [(setprefix_rest newpkg).1]; exact hc
    · exact hc
  · rw [h3]; split
    · rw [(setprefix_rest newpkg).2]; exact hf
    · exact hf

/-! ## What a package token does -/

/-- What a processor loads for a token, as the package of this real name. -/
def Processor.load (proc : Processor) (mapfile : S8 → Filemap) (realname tok : S8) : Except Fail Pkg :=
  loadpackage mapfile proc.err proc.global proc.search proc.define_prefix { Pkg.zero with realname := realname } tok

variable {load : S8 → S8 → Except Fail Pkg} {ignore : Bool} {roots : List Item} {later : List S8}

/-- The package is, but for its flags, what loading a token of its name gives that the
    arguments or a package of `l` ask for. -/
def Loaded (load : S8 → S8 → Except Fail Pkg) (roots : List Item) (l : List Pkg) (p : Pkg) : Prop :=
  ∃ tok q, Asked l roots tok ∧ pathtorealname tok = p.realname ∧ load p.realname tok = .ok q ∧
    p = { q with flags := p.flags }

theorem Loaded.contents {l : List Pkg} {p : Pkg} (h : Loaded (proc.load mapfile) roots l p) :
    p.contents.isSome = true := by
  obtain ⟨tok, q, _, _, hq, hp⟩ := h
  rw [hp]; exact ((loadpackage_rest _ _ _ _ _ _).of_ok hq).2.1

theorem Loaded.grows {l l' : List Pkg} (h : Grows l l') {p q : Pkg} (hpq : p.Le q)
    (hp : Loaded load roots l p) : Loaded load roots l' q := by
  obtain ⟨tok, r, ha, hn, hr, hp⟩ := hp
  refine ⟨tok, r, ha.grows h, hn.trans hpq.realname.symm, hpq.realname.symm ▸ hr, ?_⟩
  rw [hpq.1, hp]

theorem findname_some {l : List Pkg} {n : S8} {i : Nat} (h : findname l n = some i) :
    ∃ p, l[i]? = some p ∧ p.realname = n := by
  obtain ⟨hi, hp, _⟩ := List.findIdx?_eq_some_iff_getElem.mp h
  exact ⟨l[i], List.getElem?_eq_getElem hi, by simpa using hp⟩

theorem findname_none {l : List Pkg} {n : S8} (h : findname l n = none) : ∀ p ∈ l, p.realname ≠ n := by
  intro p hp
  have := List.findIdx?_eq_none_iff.mp h p hp
  simpa using this

/-- The frame after a package token. -/
def Procstate.after (s : Procstate) (tail : S8) (i : Nat) : Procstate :=
  ⟨tail, some i, s.depth, s.flags, .ERR, fun _ => rfl⟩

/-- A package token names a loaded package, whose flags grow and whose public requires are
    read again when it becomes public; or it loads one, and reads what it requires. -/
theorem procpackage_cases {st st' : Procrun} {tok tail : S8} (h : procpackage mapfile proc st tok tail = .ok st')
    (hl : ∀ p ∈ st.pkgs.list, p.contents.isSome = true) :
    (∃ i p, st.pkgs.list[i]? = some p ∧ p.realname = pathtorealname tok ∧
      st'.pkgs.list = st.pkgs.list.modify i (addflags st.top.flags) ∧
      if st.top.flags.pkgPublic && !p.flags.pkgPublic && (proc.recursive && st.top.depth + 1 < proc.maxdepth) then
        st.below.length < 255 ∧
        st'.top = .start (bytes p.requires) (st.top.depth + 1) { st.top.flags with pkgDirect := false } ∧
        st'.below = st.top.after tail i :: st.below
      else st'.top = st.top.after tail i ∧ st'.below = st.below) ∨
    (∃ q, (∀ p ∈ st.pkgs.list, p.realname ≠ pathtorealname tok) ∧
      proc.load mapfile (pathtorealname tok) tok = .ok q ∧
      st'.pkgs.list = st.pkgs.list ++ [addflags st.top.flags q] ∧
      if proc.recursive && st.top.depth + 1 < proc.maxdepth then
        st.below.length < 254 ∧
        st'.top = .start (bytes q.requires) (st.top.depth + 1) { st.top.flags with pkgDirect := false } ∧
        st'.below = .start (bytes q.requiresprivate) (st.top.depth + 1) .none ::
          st.top.after tail st.pkgs.list.length :: st.below
      else st'.top = st.top.after tail st.pkgs.list.length ∧ st'.below = st.below) := by
  simp only [procpackage] at h
  rcases st.pkgs.locate_cases (pathtorealname tok) with ⟨i, hi, hloc⟩ | ⟨hnone, hlist, hidx⟩
  · left
    obtain ⟨p, hp, hn⟩ := findname_some hi
    have hget : st.pkgs.get i = p := by simp [Pkgs.get, List.getD, hp]
    have hc := hl p (List.mem_of_getElem? hp)
    simp only [hloc, hget] at h
    rw [if_pos hc] at h
    refine ⟨i, p, hp, hn, ?_⟩
    split at h
    · rename_i hpro
      split at h
      · cases h
      · rename_i hcap
        cases h
        refine ⟨rfl, ?_⟩
        rw [if_pos hpro]
        exact ⟨by omega, rfl, rfl⟩
    · rename_i hpro
      cases h
      refine ⟨rfl, ?_⟩
      rw [if_neg hpro]
      exact ⟨rfl, rfl⟩
  · right
    have hget : (st.pkgs.locate (pathtorealname tok)).1.get (st.pkgs.locate (pathtorealname tok)).2 =
        { Pkg.zero with realname := pathtorealname tok } := by
      simp [Pkgs.get, hlist, hidx]
    simp only [hget] at h
    rw [if_neg (by simp [Pkg.zero])] at h
    split at h
    · cases h
    · rename_i q hq
      have hq' := ((loadpackage_rest _ _ _ _ _ _).of_ok hq).1
      have hlist' : ∀ hf, ((st.pkgs.locate (pathtorealname tok)).1.update (st.pkgs.locate (pathtorealname tok)).2
          (fun base => { addflags st.top.flags q with realname := base.realname }) hf).list =
            st.pkgs.list ++ [addflags st.top.flags q] := by
        intro hf
        rw [Pkgs.update_list, hlist, hidx, modify_last]
        simp only [addflags, hq']
      refine ⟨q, findname_none hnone, hq, ?_⟩
      split at h
      · rename_i hdesc
        split at h
        · cases h
        · rename_i hcap
          cases h
          refine ⟨hlist' fun _ => rfl, ?_⟩
          rw [if_pos hdesc, ← hidx]
          exact ⟨by omega, rfl, rfl⟩
      · rename_i hdesc
        cases h
        refine ⟨hlist' fun _ => rfl, ?_⟩
        rw [if_neg hdesc, ← hidx]
        exact ⟨rfl, rfl⟩

/-! ## Frames -/

/-- The real name of the package a pointer points to. -/
def nameat (l : List Pkg) (i : Nat) : S8 := (l.getD i Pkg.zero).realname

/-- The items a frame still has to read; `later` are tokens of arguments to come. -/
def frameitems (l : List Pkg) (s : Procstate) (later : List S8) : List Item :=
  items (s.last.map (nameat l)) s.op (tokens s.arg ++ later)

/-- Some frame, with what is to come for it: for the bottom one the later arguments. -/
def AnyFrame (later : List S8) (C : Procstate → List S8 → Prop) : List Procstate → Prop
  | [] => False
  | s :: below => C s (if below = [] then later else []) ∨ AnyFrame later C below

def AllFrames (later : List S8) (C : Procstate → List S8 → Prop) : List Procstate → Prop
  | [] => True
  | s :: below => C s (if below = [] then later else []) ∧ AllFrames later C below

theorem AnyFrame.imp {C C' : Procstate → List S8 → Prop} {frames : List Procstate}
    (hi : ∀ s ∈ frames, ∀ L, C s L → C' s L) (h : AnyFrame later C frames) : AnyFrame later C' frames := by
  induction frames with
  | nil => exact h
  | cons s below ih =>
    rcases h with h | h
    · exact Or.inl (hi s List.mem_cons_self _ h)
    · exact Or.inr (ih (fun s hs => hi s (List.mem_cons_of_mem _ hs)) h)

theorem AllFrames.imp {C C' : Procstate → List S8 → Prop} {frames : List Procstate}
    (hi : ∀ s ∈ frames, ∀ L, C s L → C' s L) (h : AllFrames later C frames) : AllFrames later C' frames := by
  induction frames with
  | nil => exact h
  | cons s below ih =>
    exact ⟨hi s List.mem_cons_self _ h.1, ih (fun s hs => hi s (List.mem_cons_of_mem _ hs)) h.2⟩

/-- Every frame is no deeper than it is high, and the bottom one has all flags. -/
def Stacked : List Procstate → Prop
  | [] => True
  | s :: below => s.depth ≤ below.length ∧ (below = [] → s.flags = ⟨true, true⟩) ∧ Stacked below

/-- An item is met, or some frame with enough flags still has it to read. -/
def Covered (l : List Pkg) (ignore : Bool) (later : List S8) (frames : List Procstate) (flags : Flags) (item : Item) :
    Prop :=
  Met l ignore flags item ∨ AnyFrame later (fun s L => flags.Le s.flags ∧ item ∈ frameitems l s L) frames

/-- Reachable with these flags. -/
structure Justified (l : List Pkg) (roots : List Item) (flags : Flags) (n : S8) : Prop where
  reachable : Reachable l roots true n
  pkgPublic : flags.pkgPublic = true → Reachable l roots false n
  pkgDirect : flags.pkgDirect = true → Names roots n

theorem Justified.grows {l l' : List Pkg} (h : Grows l l') {flags : Flags} {n : S8}
    (hj : Justified l roots flags n) : Justified l' roots flags n :=
  ⟨hj.reachable.grows h, fun hp => (hj.pkgPublic hp).grows h, hj.pkgDirect⟩

theorem Justified.or {l : List Pkg} {a b : Flags} {n : S8} (ha : Justified l roots a n)
    (hb : Justified l roots b n) : Justified l roots (a.or b) n where
  reachable := ha.reachable
  pkgPublic h := by
    rcases Bool.or_eq_true_iff.mp h with h | h
    · exact ha.pkgPublic h
    · exact hb.pkgPublic h
  pkgDirect h := by
    rcases Bool.or_eq_true_iff.mp h with h | h
    · exact ha.pkgDirect h
    · exact hb.pkgDirect h

/-- The invariant of a run for the items `roots`. -/
structure Inv (load : S8 → S8 → Except Fail Pkg) (ignore : Bool) (roots : List Item) (later : List S8) (l : List Pkg)
    (frames : List Procstate) : Prop where
  /-- Each package by a token asked for before it. -/
  loaded : ∀ (i : Nat) (p : Pkg), l[i]? = some p → Loaded load roots (l.take i) p
  distinct : (l.map Pkg.realname).Nodup
  lasts : ∀ s ∈ frames, ∀ i, s.last = some i → i < l.length
  stacked : Stacked frames
  height : frames.length ≤ 256
  args : ∀ item ∈ roots, Covered l ignore later frames ⟨true, true⟩ item
  requires : ∀ p ∈ l, ∀ item ∈ requirements p.requires,
    Covered l ignore later frames ⟨false, p.flags.pkgPublic⟩ item
  requiresprivate : ∀ p ∈ l, ∀ item ∈ requirements p.requiresprivate,
    Covered l ignore later frames .none item
  asked : AllFrames later (fun s L => ∀ tok, Item.pkg tok ∈ frameitems l s L →
    Asked l roots tok ∧ Justified l roots s.flags (pathtorealname tok)) frames
  found : ∀ p ∈ l, Justified l roots p.flags p.realname

theorem nameat_grows {l l' : List Pkg} (h : Grows l l') {i : Nat} (hi : i < l.length) : nameat l' i = nameat l i := by
  obtain ⟨q, hq, hle⟩ := h i l[i] (List.getElem?_eq_getElem hi)
  simp [nameat, List.getD, hq, List.getElem?_eq_getElem hi, hle.realname]

theorem frameitems_grows {l l' : List Pkg} (h : Grows l l') {s : Procstate} (hs : ∀ i, s.last = some i → i < l.length)
    (L : List S8) : frameitems l' s L = frameitems l s L := by
  unfold frameitems
  congr 1
  cases hlast : s.last with
  | none => rfl
  | some i => simp [nameat_grows h (hs i hlast)]

theorem frameitems_start (l : List Pkg) (field : Option S8) (depth : Nat) (flags : Flags) :
    frameitems l (.start (bytes field) depth flags) [] = requirements field := by
  simp [frameitems, Procstate.start, requirements]

/-! ## Steps that leave the packages -/

/-- The top frame reads on: what it had to read is met or still to be read. -/
theorem Inv.retop {l : List Pkg} {s s' : Procstate} {below : List Procstate}
    (h : Inv load ignore roots later l (s :: below)) (hflags : s'.flags = s.flags) (hdepth : s'.depth = s.depth)
    (hlast : ∀ i, s'.last = some i → i < l.length)
    (hitems : ∀ L, ∀ item ∈ frameitems l s L,
      (∀ flags, Met l ignore flags item) ∨ item ∈ frameitems l s' L)
    (hsub : ∀ L, ∀ item ∈ frameitems l s' L, item ∈ frameitems l s L) :
    Inv load ignore roots later l (s' :: below) := by
  have hcov : ∀ {flags item}, Covered l ignore later (s :: below) flags item →
      Covered l ignore later (s' :: below) flags item := by
    intro flags item hcov
    rcases hcov with hm | ⟨hf, hmem⟩ | hb
    · exact Or.inl hm
    · rcases hitems _ item hmem with hm | hmem
      · exact Or.inl (hm flags)
      · exact Or.inr (Or.inl ⟨hflags ▸ hf, hmem⟩)
    · exact Or.inr (Or.inr hb)
  refine ⟨h.loaded, h.distinct, ?_, ⟨hdepth ▸ h.stacked.1, hflags ▸ h.stacked.2⟩, h.height,
    fun item hi => hcov (h.args item hi), fun p hp item hi => hcov (h.requires p hp item hi),
    fun p hp item hi => hcov (h.requiresprivate p hp item hi), ?_, h.found⟩
  · intro x hx i hi
    rcases List.mem_cons.mp hx with rfl | hx
    · exact hlast i hi
    · exact h.lasts x (List.mem_cons_of_mem _ hx) i hi
  · refine ⟨?_, h.asked.2⟩
    intro tok htok
    rw [hflags]
    exact h.asked.1 tok (hsub _ _ htok)

/-- A frame that has nothing left to read ends. -/
theorem Inv.ended {l : List Pkg} {s s' : Procstate} {below : List Procstate}
    (h : Inv load ignore roots later l (s :: s' :: below)) (hnil : frameitems l s [] = []) :
    Inv load ignore roots later l (s' :: below) := by
  have hcov : ∀ {flags item}, Covered l ignore later (s :: s' :: below) flags item →
      Covered l ignore later (s' :: below) flags item := by
    intro flags item hcov
    rcases hcov with hm | ⟨_, hmem⟩ | hb
    · exact Or.inl hm
    · rw [if_neg (List.cons_ne_nil _ _), hnil] at hmem
      cases hmem
    · exact Or.inr hb
  exact ⟨h.loaded, h.distinct, fun x hx => h.lasts x (List.mem_cons_of_mem _ hx), h.stacked.2.2,
    Nat.le_of_succ_le h.height, fun item hi => hcov (h.args item hi),
    fun p hp item hi => hcov (h.requires p hp item hi), fun p hp item hi => hcov (h.requiresprivate p hp item hi),
    h.asked.2, h.found⟩

/-! ## A package token -/

theorem AnyFrame.append {C : Procstate → List S8 → Prop} (new : List Procstate)
    {frames : List Procstate} (h : AnyFrame later C frames) : AnyFrame later C (new ++ frames) := by
  induction new with
  | nil => exact h
  | cons f new ih => exact Or.inr ih

/-- A frame over others has no later arguments to come. -/
theorem AnyFrame.of_mem {C : Procstate → List S8 → Prop} {f : Procstate} {new frames : List Procstate}
    (hf : f ∈ new) (hne : frames ≠ []) (h : C f []) : AnyFrame later C (new ++ frames) := by
  induction new with
  | nil => cases hf
  | cons g new ih =>
    rcases List.mem_cons.mp hf with rfl | hf
    · exact Or.inl (by rw [if_neg (by simp [hne])]; exact h)
    · exact Or.inr (ih hf)

theorem AllFrames.append {C : Procstate → List S8 → Prop} {new frames : List Procstate} (hne : frames ≠ [])
    (hnew : ∀ f ∈ new, C f []) (h : AllFrames later C frames) : AllFrames later C (new ++ frames) := by
  induction new with
  | nil => exact h
  | cons g new ih =>
    exact ⟨by rw [if_neg (by simp [hne])]; exact hnew g List.mem_cons_self,
      ih fun f hf => hnew f (List.mem_cons_of_mem _ hf)⟩

/-- What a package of the new table `l'` is owed: its flags are justified, and each of its
    lists was asked for already, or is read by one of the new frames. -/
structure Owed (l l' : List Pkg) (roots : List Item) (new : List Procstate) (q : Pkg) : Prop where
  justified : Justified l' roots q.flags q.realname
  requires : (∃ p ∈ l, p.Le q ∧ q.flags.pkgPublic = p.flags.pkgPublic) ∨
    ∃ f ∈ new, Flags.Le ⟨false, q.flags.pkgPublic⟩ f.flags ∧ frameitems l' f [] = requirements q.requires
  requiresprivate : (∃ p ∈ l, p.Le q) ∨ ∃ f ∈ new, frameitems l' f [] = requirements q.requiresprivate

/-- A package that did not change is owed nothing new. -/
theorem Inv.owed {l l' : List Pkg} {frames : List Procstate} (h : Inv load ignore roots later l frames)
    (hg : Grows l l') (new : List Procstate) {p : Pkg} (hp : p ∈ l) : Owed l l' roots new p :=
  ⟨(h.found p hp).grows hg, Or.inl ⟨p, hp, ⟨rfl, Flags.Le.refl _⟩, rfl⟩, Or.inl ⟨p, hp, rfl, Flags.Le.refl _⟩⟩

/-- The packages and the frames change together. -/
theorem Inv.package (new : List Procstate) {l l' : List Pkg} {s : Procstate} {below : List Procstate}
    {tok tail : S8} {i : Nat} (h : Inv load ignore roots later l (s :: below)) (hg : Grows l l') (hi : i < l'.length)
    (hstep : ∀ L, frameitems l s L = .pkg tok :: frameitems l' (s.after tail i) L)
    (hmet : ∃ p ∈ l', p.realname = pathtorealname tok ∧ s.flags.Le p.flags)
    (hdistinct : (l'.map Pkg.realname).Nodup) (hlast : ∀ f ∈ new, f.last = none)
    (hstacked : Stacked (new ++ s.after tail i :: below)) (hheight : (new ++ s.after tail i :: below).length ≤ 256)
    (hasked : ∀ f ∈ new, ∀ t, Item.pkg t ∈ frameitems l' f [] →
      Asked l' roots t ∧ Justified l' roots f.flags (pathtorealname t))
    (hloaded : ∀ (j : Nat) (q : Pkg), l'[j]? = some q →
      (∃ p, l[j]? = some p ∧ p.Le q) ∨ Loaded load roots (l'.take j) q)
    (hpkgs : ∀ q ∈ l', Owed l l' roots new q) :
    Inv load ignore roots later l' (new ++ s.after tail i :: below) := by
  have hlen := hg.length_le
  have hbelow : ∀ x ∈ below, ∀ L, frameitems l' x L = frameitems l x L := fun x hx L =>
    frameitems_grows hg (h.lasts x (List.mem_cons_of_mem _ hx)) L
  have hcov : ∀ {flags item}, Covered l ignore later (s :: below) flags item →
      Covered l' ignore later (new ++ s.after tail i :: below) flags item := by
    intro flags item hcov
    rcases hcov with hm | ⟨hf, hmem⟩ | hb
    · exact Or.inl (hm.grows hg)
    · rw [hstep] at hmem
      rcases List.mem_cons.mp hmem with rfl | hmem
      · obtain ⟨p, hp, hn, hle⟩ := hmet
        exact Or.inl ⟨p, hp, hn, hf.trans hle⟩
      · exact Or.inr (AnyFrame.append new (Or.inl ⟨hf, hmem⟩))
    · refine Or.inr (AnyFrame.append new (Or.inr (hb.imp ?_)))
      intro x hx L hitem
      obtain ⟨hf, hmem⟩ := hitem
      exact ⟨hf, (hbelow x hx L).symm ▸ hmem⟩
  refine ⟨?_, hdistinct, ?_, hstacked, hheight, fun item hitem => hcov (h.args item hitem), ?_, ?_, ?_,
    fun q hq => (hpkgs q hq).justified⟩
  · intro j q hq
    rcases hloaded j q hq with ⟨p, hp, hle⟩ | hq
    · exact (h.loaded j p hp).grows (hg.take j) hle
    · exact hq
  · intro x hx j hj
    rcases List.mem_append.mp hx with hx | hx
    · rw [hlast x hx] at hj; cases hj
    · rcases List.mem_cons.mp hx with rfl | hx
      · cases hj; exact hi
      · exact Nat.lt_of_lt_of_le (h.lasts x (List.mem_cons_of_mem _ hx) j hj) hlen
  · intro q hq item hitem
    rcases (hpkgs q hq).requires with ⟨p, hp, hle, hpub⟩ | ⟨f, hf, hle, hitems⟩
    · rw [hle.requires] at hitem
      rw [hpub]
      exact hcov (h.requires p hp item hitem)
    · exact Or.inr (AnyFrame.of_mem hf (List.cons_ne_nil _ _) ⟨hle, hitems ▸ hitem⟩)
  · intro q hq item hitem
    rcases (hpkgs q hq).requiresprivate with ⟨p, hp, hle⟩ | ⟨f, hf, hitems⟩
    · rw [hle.requiresprivate] at hitem
      exact hcov (h.requiresprivate p hp item hitem)
    · exact Or.inr (AnyFrame.of_mem hf (List.cons_ne_nil _ _) ⟨⟨by simp [Flags.none], by simp [Flags.none]⟩,
        hitems ▸ hitem⟩)
  · refine AllFrames.append (List.cons_ne_nil _ _) hasked ⟨?_, ?_⟩
    · intro t ht
      have hj := h.asked.1 t (by rw [hstep]; exact List.mem_cons_of_mem _ ht)
      exact ⟨hj.1.grows hg, hj.2.grows hg⟩
    · apply h.asked.2.imp
      intro x hx L hj t ht
      rw [hbelow x hx L] at ht
      exact ⟨(hj t ht).1.grows hg, (hj t ht).2.grows hg⟩

theorem map_realname_addflags (l : List Pkg) (i : Nat) (flags : Flags) :
    (l.modify i (addflags flags)).map Pkg.realname = l.map Pkg.realname := by
  induction l generalizing i with
  | nil => cases i <;> rfl
  | cons p l ih =>
    cases i with
    | zero => rfl
    | succ i => rw [List.modify_succ_cons, List.map_cons, ih, List.map_cons]

/-- A package after one package's flags have grown. -/
theorem getElem?_addflags {l : List Pkg} {i j : Nat} {flags : Flags} {q : Pkg}
    (hq : (l.modify i (addflags flags))[j]? = some q) :
    ∃ p, l[j]? = some p ∧ (q = p ∨ (i = j ∧ q = addflags flags p)) := by
  rw [List.getElem?_modify] at hq
  cases hp : l[j]? with
  | none => rw [hp] at hq; cases hq
  | some p =>
    rw [hp] at hq
    refine ⟨p, rfl, ?_⟩
    by_cases hij : i = j
    · exact Or.inr ⟨hij, by simpa [hij] using hq.symm⟩
    · exact Or.inl (by simpa [hij] using hq.symm)

theorem le_addflags {l : List Pkg} {i j : Nat} {flags : Flags} {q : Pkg}
    (hq : (l.modify i (addflags flags))[j]? = some q) : ∃ p, l[j]? = some p ∧ p.Le q := by
  obtain ⟨p, hp, rfl | ⟨_, rfl⟩⟩ := getElem?_addflags hq
  · exact ⟨q, hp, rfl, Flags.Le.refl _⟩
  · exact ⟨p, hp, p.le_addflags _⟩

/-- What a package in the table lists is reachable when it is. -/
theorem justified_requires (flags : Flags) {l : List Pkg} {p : Pkg} (hp : p ∈ l)
    (h : Justified l roots flags p.realname) {tok : S8} (ht : Item.pkg tok ∈ requirements p.requires) :
    Asked l roots tok ∧ Justified l roots { flags with pkgDirect := false } (pathtorealname tok) :=
  ⟨Or.inr ⟨p, hp, Or.inl ht⟩, h.reachable.step ⟨p, hp, rfl, Or.inl ⟨tok, ht, rfl⟩⟩,
    fun hpub => (h.pkgPublic hpub).step ⟨p, hp, rfl, Or.inl ⟨tok, ht, rfl⟩⟩, by simp⟩

theorem justified_requiresprivate {l : List Pkg} {p : Pkg} {flags : Flags} (hp : p ∈ l)
    (h : Justified l roots flags p.realname) {tok : S8} (ht : Item.pkg tok ∈ requirements p.requiresprivate) :
    Asked l roots tok ∧ Justified l roots .none (pathtorealname tok) :=
  ⟨Or.inr ⟨p, hp, Or.inr ht⟩, h.reachable.step ⟨p, hp, rfl, Or.inr ⟨rfl, tok, ht, rfl⟩⟩, by simp [Flags.none],
    by simp [Flags.none]⟩

/-- The frame of a package token, once the package is at index `i`. -/
theorem frameitems_package (l l' : List Pkg) {s : Procstate} {i : Nat} (htok : (nexttoken s.arg).1 ≠ [])
    (hop : s.op = .ERR) (hparse : parseop (nexttoken s.arg).1 = .ERR)
    (hi : nameat l' i = pathtorealname (nexttoken s.arg).1) (L : List S8) :
    frameitems l s L = .pkg (nexttoken s.arg).1 :: frameitems l' (s.after (nexttoken s.arg).2 i) L := by
  simp only [frameitems, hop, Procstate.after, Option.map_some, hi]
  rw [tokens_cons htok, List.cons_append, items_package hparse]

theorem nameat_some {l : List Pkg} {i : Nat} {p : Pkg} (h : l[i]? = some p) : nameat l i = p.realname := by
  simp [nameat, List.getD, h]

/-- A token names a package that is there: its flags grow, and the new frames read its
    public requires when it becomes public. -/
theorem Inv.flagged (new : List Procstate) {l : List Pkg} {s : Procstate} {below : List Procstate} {tok tail : S8}
    {i : Nat} {p : Pkg} (h : Inv load ignore roots later l (s :: below)) (hp : l[i]? = some p)
    (hn : p.realname = pathtorealname tok) (hjust : Justified l roots s.flags p.realname)
    (hstep : ∀ L, frameitems l s L = .pkg tok :: frameitems (l.modify i (addflags s.flags)) (s.after tail i) L)
    (hlast : ∀ f ∈ new, f.last = none) (hstacked : Stacked (new ++ s.after tail i :: below))
    (hheight : (new ++ s.after tail i :: below).length ≤ 256)
    (hasked : ∀ f ∈ new, ∀ t, Item.pkg t ∈ frameitems (l.modify i (addflags s.flags)) f [] →
      Asked (l.modify i (addflags s.flags)) roots t ∧
        Justified (l.modify i (addflags s.flags)) roots f.flags (pathtorealname t))
    (hpublic : (p.flags.or s.flags).pkgPublic = p.flags.pkgPublic ∨
      ∃ f ∈ new, Flags.Le ⟨false, (p.flags.or s.flags).pkgPublic⟩ f.flags ∧
        frameitems (l.modify i (addflags s.flags)) f [] = requirements p.requires) :
    Inv load ignore roots later (l.modify i (addflags s.flags)) (new ++ s.after tail i :: below) := by
  have hg := grows_addflags l i s.flags
  have hp' : (l.modify i (addflags s.flags))[i]? = some (addflags s.flags p) := by
    rw [List.getElem?_modify, hp]; simp
  have hmem := List.mem_of_getElem? hp
  refine h.package new hg (List.getElem?_eq_some_iff.mp hp').1 hstep
    ⟨_, List.mem_of_getElem? hp', hn, Flags.le_or_right _ _⟩ ?_ hlast hstacked hheight hasked
    (fun j q hq => Or.inl (le_addflags hq)) fun x hx => ?_
  · rw [map_realname_addflags]; exact h.distinct
  · obtain ⟨j, hj⟩ := List.mem_iff_getElem?.mp hx
    obtain ⟨p0, hp0, rfl | ⟨rfl, rfl⟩⟩ := getElem?_addflags hj
    · exact h.owed hg new (List.mem_of_getElem? hp0)
    · obtain rfl : p = p0 := Option.some.inj (hp.symm.trans hp0)
      exact ⟨((h.found p hmem).or hjust).grows hg, hpublic.imp (fun he => ⟨p, hmem, p.le_addflags _, he⟩) id,
        Or.inl ⟨p, hmem, p.le_addflags _⟩⟩

/-- A token loads a package, and two frames read what it requires. -/
theorem Inv.loads {l : List Pkg} {s pub priv : Procstate} {below : List Procstate} {tok tail : S8} {q : Pkg}
    (h : Inv load ignore roots later l (s :: below)) (hload : load (pathtorealname tok) tok = .ok q)
    (hqn : q.realname = pathtorealname tok) (hnew : ∀ p ∈ l, p.realname ≠ pathtorealname tok)
    (hasked : Asked l roots tok) (hjust : Justified l roots s.flags (pathtorealname tok))
    (hflags : (addflags s.flags q).flags = s.flags)
    (hstep : ∀ L, frameitems l s L =
      .pkg tok :: frameitems (l ++ [addflags s.flags q]) (s.after tail l.length) L)
    (hpub : pub = .start (bytes q.requires) (s.depth + 1) { s.flags with pkgDirect := false })
    (hpriv : priv = .start (bytes q.requiresprivate) (s.depth + 1) .none) (hcap : below.length < 254) :
    Inv load ignore roots later (l ++ [addflags s.flags q]) (pub :: priv :: s.after tail l.length :: below) := by
  have hg := grows_append l [addflags s.flags q]
  have hq' : (l ++ [addflags s.flags q])[l.length]? = some (addflags s.flags q) := by simp
  have hmem := List.mem_of_getElem? hq'
  have hjq : Justified (l ++ [addflags s.flags q]) roots s.flags (addflags s.flags q).realname :=
    hqn ▸ hjust.grows hg
  have hpubitems : frameitems (l ++ [addflags s.flags q]) pub [] = requirements q.requires := by
    rw [hpub, frameitems_start]
  have hprivitems : frameitems (l ++ [addflags s.flags q]) priv [] = requirements q.requiresprivate := by
    rw [hpriv, frameitems_start]
  refine h.package [pub, priv] hg (by simp) hstep ⟨_, hmem, hqn, Flags.le_or_right _ _⟩ ?_ ?_ ?_ ?_ ?_ ?_ ?_
  · rw [List.map_append, List.nodup_append]
    refine ⟨h.distinct, by simp, ?_⟩
    intro a ha b hb e
    obtain ⟨p, hp, rfl⟩ := List.mem_map.mp ha
    simp only [List.map_cons, List.map_nil, List.mem_singleton] at hb
    exact hnew p hp (e.trans (hb.trans hqn))
  · simp only [List.forall_mem_cons, List.not_mem_nil, false_implies, implies_true, and_true, hpub, hpriv]
    exact ⟨rfl, rfl⟩
  · have hdepth := h.stacked.1
    rw [hpub, hpriv]
    exact ⟨Nat.le_succ_of_le (Nat.succ_le_succ hdepth), by simp, Nat.succ_le_succ hdepth, by simp, hdepth,
      h.stacked.2.1, h.stacked.2.2⟩
  · simp only [List.cons_append, List.nil_append, List.length_cons]; omega
  · intro f hf t ht
    rcases List.mem_cons.mp hf with rfl | hf
    · rw [hpubitems] at ht
      rw [hpub]
      exact justified_requires _ hmem hjq ht
    · rw [List.mem_singleton] at hf
      subst hf
      rw [hprivitems] at ht
      rw [hpriv]
      exact justified_requiresprivate hmem hjq ht
  · intro j x hx
    by_cases hj : j < l.length
    · rw [List.getElem?_append_left hj] at hx
      exact Or.inl ⟨x, hx, rfl, Flags.Le.refl _⟩
    · right
      obtain ⟨hjl, hxe⟩ := List.getElem?_eq_some_iff.mp hx
      rw [List.length_append, List.length_singleton] at hjl
      obtain rfl : j = l.length := by omega
      rw [hq'] at hx
      cases hx
      rw [List.take_left]
      exact ⟨tok, q, hasked, hqn.symm, by rw [show (addflags s.flags q).realname = _ from hqn]; exact hload, rfl⟩
  · intro x hx
    rcases List.mem_append.mp hx with hx | hx
    · exact h.owed hg _ hx
    · obtain rfl := List.mem_singleton.mp hx
      refine ⟨by rw [hflags]; exact hjq, Or.inr ⟨pub, List.mem_cons_self, ?_, hpubitems⟩,
        Or.inr ⟨priv, List.mem_cons_of_mem _ (List.mem_singleton_self _), hprivitems⟩⟩
      rw [hflags, hpub]
      exact ⟨by simp, id⟩

/-- The default traversal: everything is descended into. -/
structure Traverses (proc : Processor) : Prop where
  recursive : proc.recursive = true
  maxdepth : proc.maxdepth = 0x7fffffff

theorem procpackage_inv (ht : Traverses proc) {st st' : Procrun}
    (h : Inv (proc.load mapfile) proc.ignore_versions roots later st.pkgs.list (st.top :: st.below))
    (htok : (nexttoken st.top.arg).1 ≠ []) (hop : st.top.op = .ERR) (hparse : parseop (nexttoken st.top.arg).1 = .ERR)
    (hs : procpackage mapfile proc st (nexttoken st.top.arg).1 (nexttoken st.top.arg).2 = .ok st') :
    Inv (proc.load mapfile) proc.ignore_versions roots later st'.pkgs.list (st'.top :: st'.below) := by
  obtain ⟨s, below, pkgs⟩ := st
  simp only at h htok hop hparse hs
  have hdepth := h.stacked.1
  have hheight := h.height
  rw [List.length_cons] at hheight
  have hdesc : (proc.recursive && s.depth + 1 < proc.maxdepth) = true := by
    rw [ht.recursive, ht.maxdepth, Bool.true_and, decide_eq_true_eq]; omega
  -- the token's package is justified by the frame it was read from
  obtain ⟨hasked, hjust⟩ : Asked pkgs.list roots (nexttoken s.arg).1 ∧
      Justified pkgs.list roots s.flags (pathtorealname (nexttoken s.arg).1) := by
    apply h.asked.1
    unfold frameitems
    rw [hop, tokens_cons htok, List.cons_append, items_package hparse]
    exact List.mem_cons_self
  have hcontents : ∀ p ∈ pkgs.list, p.contents.isSome = true := by
    intro p hp
    obtain ⟨j, hj⟩ := List.mem_iff_getElem?.mp hp
    exact (h.loaded j p hj).contents
  rcases procpackage_cases hs hcontents with
    ⟨i, p, hp, hn, hlist, hframes⟩ | ⟨q, hnew, hq, hlist, hframes⟩
  · simp only at hp hn hlist hframes
    have hp' : (pkgs.list.modify i (addflags s.flags))[i]? = some (addflags s.flags p) := by
      rw [List.getElem?_modify, hp]; simp
    have hstep := frameitems_package pkgs.list (pkgs.list.modify i (addflags s.flags)) htok hop hparse
      ((nameat_some hp').trans hn)
    rw [← hn] at hjust
    rw [hlist]
    rw [hdesc, Bool.and_true] at hframes
    split at hframes
    · -- promoted to public
      rename_i hpro
      rw [Bool.and_eq_true] at hpro
      obtain ⟨hcap, htop, hbelow⟩ := hframes
      rw [hbelow]
      refine h.flagged [st'.top] hp hn hjust hstep ?_ ?_ ?_ ?_ (Or.inr ⟨_, List.mem_singleton_self _, ?_, ?_⟩)
      · intro f hf; rw [List.mem_singleton.mp hf, htop]; rfl
      · rw [htop]
        exact ⟨Nat.succ_le_succ hdepth, by simp, hdepth, h.stacked.2.1, h.stacked.2.2⟩
      · simp only [List.cons_append, List.nil_append, List.length_cons]; omega
      · intro f hf t ht
        rw [List.mem_singleton.mp hf, htop] at ht ⊢
        rw [frameitems_start] at ht
        exact justified_requires s.flags (List.mem_of_getElem? hp') (hjust.grows (grows_addflags _ _ _)) ht
      · rw [htop]
        exact ⟨by simp, fun _ => hpro.1⟩
      · rw [htop, frameitems_start]
    · -- not promoted: it was public, or the path is private
      rename_i hpro
      rw [hframes.1, hframes.2]
      refine h.flagged [] hp hn hjust hstep (by simp) h.stacked h.height (by simp) (Or.inl ?_)
      cases hsp : s.flags.pkgPublic <;> cases hpp : p.flags.pkgPublic <;> simp_all [Flags.or]
  · simp only at hnew hq hlist hframes
    obtain ⟨hqn, _, hqf⟩ := (loadpackage_rest _ _ _ _ _ _).of_ok hq
    have hq' : (pkgs.list ++ [addflags s.flags q])[pkgs.list.length]? = some (addflags s.flags q) := by simp
    rw [hdesc, if_pos rfl] at hframes
    obtain ⟨hcap, htop, hbelow⟩ := hframes
    rw [hlist, hbelow]
    exact h.loads hq hqn hnew hasked hjust (by simp [addflags, hqf, Flags.or, Flags.none])
      (frameitems_package pkgs.list _ htok hop hparse ((nameat_some hq').trans hqn)) htop rfl hcap

/-! ## A run -/

/-- One turn of the loop keeps the invariant. -/
theorem procStep_inv (ht : Traverses proc) {st st' : Procrun}
    (h : Inv (proc.load mapfile) proc.ignore_versions roots later st.pkgs.list (st.top :: st.below))
    (hs : procStep mapfile proc st = .go st') :
    Inv (proc.load mapfile) proc.ignore_versions roots later st'.pkgs.list (st'.top :: st'.below) := by
  have hstep := procStep_cases hs
  obtain ⟨s, below, pkgs⟩ := st
  simp only at h hstep
  rcases hstep with ⟨htok, hop, hbelow, hpkgs⟩ | ⟨htok, hop, hvalid, rfl⟩ | ⟨htok, hop, hparse, i, hi, rfl⟩ |
    ⟨htok, hop, hparse, hp⟩
  · rw [hpkgs]
    rw [hbelow] at h
    apply h.ended
    cases hlast : s.last.map (nameat pkgs.list) <;> simp [frameitems, hlast, hop, tokens_nil htok, items]
  · obtain ⟨i, hi⟩ := Option.isSome_iff_exists.mp (s.pending hop)
    have hlt := h.lasts s List.mem_cons_self i hi
    -- the constraint is on the package the frame kept
    have hitems : ∀ L, frameitems pkgs.list s L = .constraint (nameat pkgs.list i) s.op (nexttoken s.arg).1 ::
        items none .ERR (tokens (nexttoken s.arg).2 ++ L) := by
      intro L
      simp only [frameitems, hi, Option.map_some]
      rw [tokens_cons htok, List.cons_append, items_version hop]; rfl
    refine h.retop rfl rfl (by simp) ?_ ?_
    · intro L item hitem
      rw [hitems] at hitem
      rcases List.mem_cons.mp hitem with rfl | hitem
      · refine Or.inl fun flags hig => ⟨pkgs.list[i], List.getElem_mem hlt, ?_, ?_⟩
        · exact (nameat_some (List.getElem?_eq_getElem hlt)).symm
        · simpa [hi, Pkgs.get, List.getD, List.getElem?_eq_getElem hlt] using hvalid hig
      · exact Or.inr hitem
    · intro L item hitem
      rw [hitems]
      exact List.mem_cons_of_mem _ hitem
  · have hitems : ∀ L, frameitems pkgs.list s L = frameitems pkgs.list
        ⟨(nexttoken s.arg).2, some i, s.depth, s.flags, parseop (nexttoken s.arg).1, by simp⟩ L := by
      intro L
      simp only [frameitems, hi, hop, Option.map_some]
      rw [tokens_cons htok, List.cons_append, items_operator hparse]
    refine h.retop rfl rfl ?_ ?_ ?_
    · intro j hj; cases hj; exact h.lasts s List.mem_cons_self i hi
    · intro L item hitem; exact Or.inr (hitems L ▸ hitem)
    · intro L item hitem; exact hitems L ▸ hitem
  · exact procpackage_inv ht h htok hop hparse hp

/-- The loop ends without a failure when the bottom frame has nothing left to read. -/
theorem procStep_ok {st : Procrun} {e : Procend} (hs : procStep mapfile proc st = .stop (.ok e)) :
    (nexttoken st.top.arg).1 = [] ∧ st.below = [] ∧ e = ⟨st.top.last, st.top.op, st.top.pending, st.pkgs⟩ := by
  obtain ⟨s, below, pkgs⟩ := st
  simp only [procStep] at hs
  split at hs
  · rename_i htok
    cases below with
    | nil => cases hs; exact ⟨htok, rfl, rfl⟩
    | cons s' below => simp only at hs; split at hs <;> cases hs
  · split at hs
    · split at hs <;> cases hs
    · split at hs
      · split at hs <;> cases hs
      · cases hp : procpackage mapfile proc ⟨s, below, pkgs⟩ (nexttoken s.arg).1 (nexttoken s.arg).2 with
        | error f => rw [hp] at hs; cases hs
        | ok st'' => rw [hp] at hs; cases hs

/-- The bottom frame may be another one with the same items to read. -/
theorem Inv.bottom {later' : List S8} {l : List Pkg} {s s' : Procstate}
    (h : Inv load ignore roots later l [s]) (hflags : s'.flags = s.flags) (hdepth : s'.depth = s.depth)
    (hlast : s'.last = s.last) (hitems : frameitems l s' later' = frameitems l s later) :
    Inv load ignore roots later' l [s'] := by
  have hcov : ∀ {flags item}, Covered l ignore later [s] flags item →
      Covered l ignore later' [s'] flags item := by
    intro flags item hcov
    rcases hcov with hm | ⟨hf, hmem⟩ | hb
    · exact Or.inl hm
    · refine Or.inr (Or.inl ⟨hflags ▸ hf, ?_⟩)
      rw [if_pos rfl] at hmem ⊢
      exact hitems ▸ hmem
    · exact hb.elim
  refine ⟨h.loaded, h.distinct, ?_, ⟨hdepth ▸ h.stacked.1, hflags ▸ h.stacked.2.1, trivial⟩, h.height,
    fun item hi => hcov (h.args item hi), fun p hp item hi => hcov (h.requires p hp item hi),
    fun p hp item hi => hcov (h.requiresprivate p hp item hi), ⟨?_, trivial⟩, h.found⟩
  · intro x hx i hi
    rw [List.mem_singleton] at hx
    subst hx
    exact h.lasts s (List.mem_singleton_self _) i (hlast ▸ hi)
  · intro tok htok
    rw [if_pos rfl, hitems] at htok
    rw [hflags]
    exact h.asked.1 tok (by rw [if_pos rfl]; exact htok)

/-- Between arguments the bottom frame is what the processor keeps. -/
def Between (mapfile : S8 → Filemap) (roots : List Item) (later : List S8) (proc : Processor) : Prop :=
  Inv (proc.load mapfile) proc.ignore_versions roots later proc.pkgs.list [proc.frame []]

/-- What `process` changes. -/
theorem process_config {proc' : Processor} {arg : S8} (h : process mapfile proc arg = .ok proc') :
    proc' = { proc with last := proc'.last, op := proc'.op, pending := proc'.pending, pkgs := proc'.pkgs } := by
  unfold process at h
  split at h
  · cases h
  · cases h; rfl

/-- One argument is read off what is to come. -/
theorem process_between (ht : Traverses proc) {arg : S8} {proc' : Processor}
    (h : Between mapfile roots (tokens arg ++ later) proc) (hp : process mapfile proc arg = .ok proc') :
    Between mapfile roots later proc' := by
  have hstart : Inv (proc.load mapfile) proc.ignore_versions roots later proc.pkgs.list [proc.frame arg] := by
    refine Inv.bottom h rfl rfl rfl ?_
    simp only [frameitems, Processor.frame]
    rw [tokens_nil (s := []) rfl, List.nil_append]
  have hrun := (procMachine mapfile proc).run_inv
    (I := fun st => Inv (proc.load mapfile) proc.ignore_versions roots later st.pkgs.list (st.top :: st.below))
    (Q := fun r => ∀ e, r = .ok e →
      Inv (proc.load mapfile) proc.ignore_versions roots later e.pkgs.list
        [⟨[], e.last, 0, ⟨true, true⟩, e.op, e.pending⟩])
    (fun st st' hi hs => procStep_inv ht hi hs) ?_ ⟨proc.frame arg, [], proc.pkgs⟩ hstart
  · unfold process at hp
    split at hp
    · cases hp
    · rename_i e he
      cases hp
      exact hrun e he
  · intro st r hi hs e he
    subst he
    obtain ⟨htok, hbelow, rfl⟩ := procStep_ok hs
    rw [hbelow] at hi
    refine Inv.bottom hi (hi.stacked.2.1 rfl).symm (Nat.le_zero.mp hi.stacked.1).symm rfl ?_
    simp only [frameitems]
    rw [tokens_nil (s := []) rfl, tokens_nil htok]

theorem processargs_between {args : List S8} {proc proc' : Processor} (ht : Traverses proc)
    (h : Between mapfile roots (args.flatMap tokens) proc) (hp : processargs mapfile proc args = .ok proc') :
    Between mapfile roots [] proc' ∧
      proc' = { proc with last := proc'.last, op := proc'.op, pending := proc'.pending, pkgs := proc'.pkgs } := by
  induction args generalizing proc with
  | nil => cases hp; exact ⟨h, rfl⟩
  | cons arg args ih =>
    rw [processargs, List.foldlM_cons] at hp
    cases h1 : process mapfile proc arg with
    | error f => rw [h1] at hp; cases hp
    | ok p1 =>
      rw [h1] at hp
      have hc := process_config h1
      have ht1 : Traverses p1 := by rw [hc]; exact ⟨ht.recursive, ht.maxdepth⟩
      obtain ⟨hb, he⟩ := ih ht1 (process_between ht (by simpa using h) h1) hp
      refine ⟨hb, ?_⟩
      rw [he, hc]

/-- A processor that has processed nothing. -/
structure Fresh (proc : Processor) : Prop where
  pkgs : proc.pkgs = Pkgs.empty
  last : proc.last = none
  op : proc.op = .ERR

theorem fresh_newprocessor (c : Config) (err : Errbuf) (g : Env) : Fresh (newprocessor c err g) := ⟨rfl, rfl, rfl⟩

theorem traverses_newprocessor (c : Config) (err : Errbuf) (g : Env) : Traverses (newprocessor c err g) := ⟨rfl, rfl⟩

/-- At first everything is still to be read. -/
theorem fresh_between (hf : Fresh proc) (args : List S8) :
    Between mapfile (argitems args) (args.flatMap tokens) proc := by
  have hl : proc.pkgs.list = [] := by rw [hf.pkgs]; rfl
  have hitems : frameitems proc.pkgs.list (proc.frame []) (args.flatMap tokens) = argitems args := by
    simp only [frameitems, Processor.frame, hf.last, hf.op, argitems]
    rw [tokens_nil (s := []) rfl]
    rfl
  unfold Between
  rw [hl] at hitems ⊢
  refine ⟨by simp, by simp, ?_, ⟨Nat.le_refl _, fun _ => rfl, trivial⟩, by simp, ?_, by simp, by simp, ⟨?_, trivial⟩,
    by simp⟩
  · intro s hs i hi
    rw [List.mem_singleton] at hs
    subst hs
    have hi : proc.last = some i := hi
    rw [hf.last] at hi
    cases hi
  · intro item hi
    refine Or.inr (Or.inl ⟨Flags.Le.refl _, ?_⟩)
    rw [if_pos rfl, hitems]
    exact hi
  · intro tok htok
    rw [if_pos rfl, hitems] at htok
    exact ⟨Or.inl htok, ⟨_, ⟨tok, htok, rfl⟩, .refl⟩, fun _ => ⟨_, ⟨tok, htok, rfl⟩, .refl⟩, fun _ => ⟨tok, htok, rfl⟩⟩

end GnuWindows.PkgConfig
