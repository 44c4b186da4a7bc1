/-
  GnuWindows.PkgConfig.Relocate — the directories of a package as texts in its values.

  A package has the directory of its file in `pcfiledir`, and with `define_prefix` the
  directory two levels further up in `prefix` when that directory is called `pkgconfig`.
  `dirname` leaves nothing of a path without a separator, as it does of a file of the root
  directory, and what follows nothing and a separator is an absolute path.

  Proved:
  - `dirname_append`: the directory of a path, in front of its last separator.
  - `loadpackage_located`: what a loaded package has in the two variables.
  - `relocates_iff`: the texts made of them are as absolute as the path of the file exactly
    when the path has the separators that the directories are cut at, or begins with one.
-/
import GnuWindows.PkgConfig.ProcessProofs
import Mathlib.Data.List.Induction

namespace GnuWindows.PkgConfig

open GnuWindows.Lib.Hoare (Ends)

/-! ## Directories -/

/-- The path begins with a separator. -/
def Rooted (path : S8) : Prop := path.head?.any pathsep = true

instance (path : S8) : Decidable (Rooted path) := inferInstanceAs (Decidable (_ = true))

def separators (path : S8) : Nat := path.countP pathsep

theorem dirnamelen_le (path : S8) (len : Nat) : dirnamelen path len ≤ len := by
  induction len with
  | zero => exact Nat.le_refl 0
  | succ len ih =>
    rw [dirnamelen]
    split
    · exact Nat.le_succ len
    · exact Nat.le_succ_of_le ih

/-- Only what is in front of `len` is looked at. -/
theorem dirnamelen_append (path rest : S8) {len : Nat} (h : len ≤ path.length) :
    dirnamelen (path ++ rest) len = dirnamelen path len := by
  induction len with
  | zero => rfl
  | succ len ih =>
    have hbyte : (path ++ rest).getD len 0 = path.getD len 0 := by
      rw [List.getD_eq_getElem?_getD, List.getD_eq_getElem?_getD, List.getElem?_append_left h]
    rw [dirnamelen, dirnamelen, hbyte, ih (Nat.le_of_succ_le h)]

theorem dirname_concat (path : S8) (c : UInt8) :
    dirname (path ++ [c]) = if pathsep c then path else dirname path := by
  have hbyte : (path ++ [c]).getD path.length 0 = c := by simp
  rw [dirname, List.length_append, List.length_singleton, dirnamelen, hbyte, dirnamelen_append _ _ (Nat.le_refl _)]
  split
  · exact List.take_left
  · exact List.take_append_of_le_length (dirnamelen_le path path.length)

/-- The directory, the last separator and the last component. -/
theorem dirname_append {dir name : S8} {sep : UInt8} (hsep : pathsep sep = true)
    (hname : ∀ c ∈ name, pathsep c = false) : dirname (dir ++ sep :: name) = dir := by
  induction name using List.reverseRecOn with
  | nil => rw [dirname_concat, if_pos hsep]
  | append_singleton name c ih =>
    have hc : ¬ pathsep c = true := by simp [hname c]
    rw [← List.cons_append, ← List.append_assoc, dirname_concat, if_neg hc]
    exact ih fun c hm => hname c (List.mem_append_left _ hm)

theorem separators_dirname (path : S8) : separators (dirname path) = separators path - 1 := by
  induction path using List.reverseRecOn with
  | nil => rfl
  | append_singleton path c ih =>
    rw [dirname_concat, separators, separators, List.countP_append]
    split
    · rename_i hc
      rw [List.countP_singleton, if_pos hc, Nat.add_sub_cancel]
    · rename_i hc
      rw [List.countP_singleton, if_neg hc, Nat.add_zero]
      exact ih

theorem Rooted.of_front {dir path : S8} (h : Rooted dir) (hfront : dir <+: path) : Rooted path := by
  obtain ⟨rest, rfl⟩ := hfront
  cases dir with
  | nil => cases h
  | cons c dir => exact h

theorem dirname_front (path : S8) : dirname path <+: path := List.take_prefix _ _

theorem dirname_eq_nil_iff {path : S8} (h : ¬ Rooted path) : dirname path = [] ↔ separators path = 0 := by
  induction path using List.reverseRecOn with
  | nil => exact iff_of_true rfl rfl
  | append_singleton path c ih =>
    have hpath : ¬ Rooted path := fun hr => h (hr.of_front (List.prefix_append _ _))
    rw [dirname_concat, separators, List.countP_append, List.countP_singleton]
    split
    · rename_i hc
      refine iff_of_false ?_ (Nat.succ_ne_zero _)
      rintro rfl
      exact h hc
    · rw [Nat.add_zero]
      exact ih hpath

/-! ## Texts -/

theorem pathsep_pathencode (c : UInt8) : pathsep (pathencode c) = pathsep c := by
  unfold pathencode
  split <;> rfl

/-- The value of a directory with a suffix. -/
theorem rooted_text (dir x : S8) : Rooted (s8pathencode dir ++ S "/" ++ x) ↔ dir = [] ∨ Rooted dir := by
  rw [s8pathencode_eq_map]
  cases dir with
  | nil => exact iff_of_true rfl (.inl rfl)
  | cons c dir => simp [Rooted, pathsep_pathencode]

/-- A directory that is empty makes a text absolute, and no other one does. -/
theorem text_iff {dir path : S8} (hfront : dir <+: path) :
    (∀ x, ¬ Rooted x → Rooted (s8pathencode dir ++ S "/" ++ x) → Rooted path) ↔ Rooted path ∨ dir ≠ [] := by
  constructor
  · intro h
    by_cases hdir : dir = []
    · exact .inl (h [] (by decide) ((rooted_text dir []).mpr (.inl hdir)))
    · exact .inr hdir
  · intro h x _ htext
    rcases (rooted_text dir x).mp htext with hdir | hdir
    · exact h.resolve_right (absurd hdir)
    · exact hdir.of_front hfront

/-! ## Loaded packages -/

/-- `define_prefix` rewrites the package's prefix. -/
def Rewritten (define : Bool) (path : S8) : Prop := define = true ∧ S "pkgconfig" = basename (dirname path)

/-- The variables of a package whose file has the path. -/
structure Located (define : Bool) (path : S8) (env : Env) : Prop where
  pcfiledir : env.find (S "pcfiledir") = some (some (s8pathencode (dirname path)))
  pkgconfig : Rewritten define path →
    env.find (S "prefix") = some (some (s8pathencode (dirname (dirname (dirname path)))))

theorem findpackage_located (mapfile : S8 → Filemap) (err : Errbuf) (dirs : Search) (tok : S8) :
    Ends (findpackage mapfile err dirs tok) (fun p => Located false p.path p.env) fun _ => True := by
  unfold findpackage
  refine Ends.bind (.intro (fun _ _ => trivial) fun _ _ => trivial) fun found (_ : True) => ?_
  simp only
  split
  · exact Ends.error trivial
  · exact Ends.error trivial
  · split
    · exact Ends.error trivial
    · exact Ends.ok ⟨Env.find_bind_self _ _ _, fun h => by cases h.1⟩

theorem setprefix_located {p : Pkg} (h : Located false p.path p.env) :
    ( setprefix p).path = p.path ∧ Located true p.path ( setprefix p).env := by
  have hname : S "pcfiledir" ≠ S "prefix" := by decide
  simp only [ setprefix]
  split
  · refine ⟨rfl, (Env.find_bind_ne _ _ hname).trans h.pcfiledir, fun _ => Env.find_bind_self _ _ _⟩
  · rename_i hbase
    exact ⟨rfl, h.pcfiledir, fun hrew => absurd (beq_iff_eq.mpr hrew.2) hbase⟩

theorem expandmerge_keeps (err : Errbuf) (global : Env) (base update : Pkg) :
    Ends (expandmerge err global base update) (fun p => p.path = update.path ∧ p.env = update.env)
      fun _ => True := by
  refine Ends.foldlM (?_) ⟨rfl, rfl⟩
  intro i _ p hp
  simp only [expandfield]
  split
  · exact Ends.error trivial
  · exact Ends.ok hp

theorem loadpackage_located (mapfile : S8 → Filemap) (err : Errbuf) (global : Env) (dirs : Search) (define : Bool)
    (base : Pkg) (tok : S8) :
    Ends (loadpackage mapfile err global dirs define base tok) (fun p => Located define p.path p.env)
      fun _ => True := by
  refine (findpackage_located mapfile err dirs tok).bind fun newpkg hnew => ?_
  refine (expandmerge_keeps err global base _).mono (fun p ⟨hpath, henv⟩ => ?_) fun _ _ => trivial
  rw [hpath, henv]
  cases define with
  | false => exact hnew
  | true =>
    obtain ⟨hpath', hloc⟩ := setprefix_located hnew
    rw [if_pos rfl, hpath']
    exact hloc

/-- Relative paths stay relative, and the directory points back to the file. -/
structure Relocates (define : Bool) (path : S8) (env : Env) : Prop where
  pointsback : ∀ dir sep name, pathsep sep = true → (∀ c ∈ name, pathsep c = false) → path = dir ++ sep :: name →
    ∃ pcfiledir, env.find (S "pcfiledir") = some (some (s8pathencode pcfiledir)) ∧ pcfiledir ++ sep :: name = path
  pcfiledir : ∃ value, env.find (S "pcfiledir") = some (some value) ∧
    ∀ x, ¬ Rooted x → Rooted (value ++ S "/" ++ x) → Rooted path
  pkgconfig : Rewritten define path → ∃ value, env.find (S "prefix") = some (some value) ∧
    ∀ x, ¬ Rooted x → Rooted (value ++ S "/" ++ x) → Rooted path

theorem Located.pointsback {define : Bool} {path : S8} {env : Env} (h : Located define path env) {dir name : S8}
    {sep : UInt8} (hsep : pathsep sep = true) (hname : ∀ c ∈ name, pathsep c = false)
    (hpath : path = dir ++ sep :: name) :
    ∃ pcfiledir, env.find (S "pcfiledir") = some (some (s8pathencode pcfiledir)) ∧ pcfiledir ++ sep :: name = path := by
  refine ⟨dirname path, h.pcfiledir, ?_⟩
  rw [hpath, dirname_append hsep hname]

/-- A value that is known. -/
theorem exists_value_iff {env : Env} {name value : S8} {K : S8 → Prop} (h : env.find name = some (some value)) :
    (∃ v, env.find name = some (some v) ∧ K v) ↔ K value := by
  constructor
  · rintro ⟨v, hv, hk⟩
    rw [h] at hv
    cases hv
    exact hk
  · exact fun hk => ⟨value, h, hk⟩

/-- Every loaded package: its file's path begins with a separator, or has one, and three if
    the prefix is the directory two levels up from it. -/
theorem relocates_iff {mapfile : S8 → Filemap} {err : Errbuf} {global : Env} {dirs : Search} {define : Bool}
    {base p : Pkg} {tok : S8} (h : loadpackage mapfile err global dirs define base tok = .ok p) :
    Relocates define p.path p.env ↔
      Rooted p.path ∨ (0 < separators p.path ∧ (Rewritten define p.path → 3 ≤ separators p.path)) := by
  have hloc := (loadpackage_located mapfile err global dirs define base tok).of_ok h
  have hup : ∀ path, dirname (dirname (dirname path)) <+: path := fun path =>
    (dirname_front _).trans ((dirname_front _).trans (dirname_front _))
  by_cases hroot : Rooted p.path
  · refine iff_of_true ⟨fun _ _ _ => hloc.pointsback, ?_, fun hrew => ?_⟩ (.inl hroot)
    · exact ⟨_, hloc.pcfiledir, fun _ _ _ => hroot⟩
    · exact ⟨_, hloc.pkgconfig hrew, fun _ _ _ => hroot⟩
  · have hdir : (dirname p.path ≠ []) ↔ 0 < separators p.path := by
      rw [Ne, dirname_eq_nil_iff hroot, Nat.pos_iff_ne_zero]
    have hroot' : ¬ Rooted (dirname (dirname p.path)) := fun hr =>
      hroot (hr.of_front ((dirname_front _).trans (dirname_front _)))
    have hdir' : (dirname (dirname (dirname p.path)) ≠ []) ↔ 3 ≤ separators p.path := by
      rw [Ne, dirname_eq_nil_iff hroot', separators_dirname, separators_dirname]
      omega
    rw [or_iff_right hroot]
    constructor
    · rintro ⟨-, hpc, hpre⟩
      rw [exists_value_iff hloc.pcfiledir, text_iff (dirname_front _), or_iff_right hroot, hdir] at hpc
      refine ⟨hpc, fun hrew => ?_⟩
      have hvalue := hpre hrew
      rw [exists_value_iff (hloc.pkgconfig hrew), text_iff (hup _), or_iff_right hroot, hdir'] at hvalue
      exact hvalue
    · rintro ⟨hpc, hpre⟩
      refine ⟨fun _ _ _ => hloc.pointsback, ?_, fun hrew => ?_⟩
      · rw [exists_value_iff hloc.pcfiledir, text_iff (dirname_front _), or_iff_right hroot, hdir]
        exact hpc
      · rw [exists_value_iff (hloc.pkgconfig hrew), text_iff (hup _), or_iff_right hroot, hdir']
        exact hpre hrew

/-- Every file there is has a package without anything in it. -/
def blankfile (_ : S8) : Filemap := .ok (S "Name:\nVersion:\nDescription:\n")

theorem blankfile_path (define : Bool) (tok path : S8)
    (h : ((loadpackage blankfile .stderr .empty (newsearch 0x3a) define Pkg.zero tok).toOption.map Pkg.path) =
      some path) :
    ∃ p, loadpackage blankfile .stderr .empty (newsearch 0x3a) define Pkg.zero tok = .ok p ∧ p.path = path := by
  cases hload : loadpackage blankfile .stderr .empty (newsearch 0x3a) define Pkg.zero tok with
  | error f =>
    rw [hload] at h
    cases h
  | ok p =>
    rw [hload] at h
    exact ⟨p, rfl, Option.some.inj h⟩

theorem relocates_nested :
    ∃ p, loadpackage blankfile .stderr .empty (newsearch 0x3a) true Pkg.zero (S "usr/lib/pkgconfig/a.pc") = .ok p ∧
      Relocates true p.path p.env := by
  obtain ⟨p, hload, hpath⟩ := blankfile_path true (S "usr/lib/pkgconfig/a.pc") (S "usr/lib/pkgconfig/a.pc")
    (by decide +kernel)
  refine ⟨p, hload, (relocates_iff hload).mpr (.inr ?_)⟩
  rw [hpath]
  exact ⟨by decide, fun _ => by decide⟩

/-- The directory of `foo.pc` with a suffix is an absolute path. -/
theorem bare_file_absolute :
    ¬ ∀ (mapfile : S8 → Filemap) (err : Errbuf) (global : Env) (dirs : Search) (define : Bool) (base p : Pkg)
        (tok : S8),
      loadpackage mapfile err global dirs define base tok = .ok p → Relocates define p.path p.env := by
  intro hall
  obtain ⟨p, hload, hpath⟩ := blankfile_path true (S "foo.pc") (S "foo.pc") (by decide +kernel)
  have hloc := (loadpackage_located _ _ _ _ _ _ _).of_ok hload
  obtain ⟨value, hvalue, htext⟩ := (hall _ _ _ _ _ _ p _ hload).pcfiledir
  rw [hloc.pcfiledir, hpath] at hvalue
  cases hvalue
  have hroot := htext [] (by decide) (by decide)
  rw [hpath] at hroot
  exact absurd hroot (by decide)

end GnuWindows.PkgConfig
