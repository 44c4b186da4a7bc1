/-
  GnuWindows.Peports.Paths — which of the arguments are processed (`parseopts`, `peports`).

  What is meant: first the options, each a dash and at least one letter, then the paths,
  where the single dash is standard input. It is read as well when there is no path.

  As built, `parseopts` goes on over every argument that begins with a dash, also over the
  single one, which has no letter to look at. So it is lost in front of the first other
  path; alone, it comes back because there is no path then.

  Proved: `processed_iff`, the paths that are processed are the ones that are meant if and
  only if the options are accepted and the first path is not the single dash, or the only
  path. What is processed is what the system is asked for (`recorded`).
-/
import GnuWindows.Peports.Status
import Mathlib.Data.List.TakeWhile

namespace GnuWindows.Peports

open GnuWindows.PkgConfig (S8 S)

/-- An option argument: a dash, and at least one letter. -/
def isoption : S8 → Bool
  | 0x2d :: _ :: _ => true
  | _ => false

/-- Every letter is one that goes on with the next. -/
def Accepted (arg : S8) : Prop := ∀ x ∈ arg.drop 1, x = 0x65 ∨ x = 0x69

def options (argv : List S8) : List S8 := (argv.drop 1).takeWhile isoption

/-- What follows the options. -/
def operands (argv : List S8) : List S8 := (argv.drop 1).dropWhile isoption

/-- Standard input when there is no path. -/
def orstdin (paths : List S8) : List S8 := if paths = [] then [S "-"] else paths

/-- The paths that are meant. -/
def meantpaths (argv : List S8) : List S8 := orstdin (operands argv)

/-! ## The arguments that are passed over -/

/-- The test of `parseopts`. -/
def dashed (arg : S8) : Bool := arg.head? == some 0x2d

theorem dashed_cons (chars : S8) : dashed (0x2d :: chars) = true := rfl

theorem dashed_iff {arg : S8} : dashed arg = true ↔ ∃ chars, arg = 0x2d :: chars := by
  cases arg with
  | nil => exact ⟨nofun, fun ⟨_, h⟩ => nomatch h⟩
  | cons b bs =>
    show (some b == some 0x2d) = true ↔ _
    rw [beq_iff_eq, Option.some.injEq]
    exact ⟨fun h => ⟨bs, by rw [h]⟩, fun ⟨_, h⟩ => (List.cons.inj h).1⟩

/-- The two tests differ at the single dash only. -/
theorem dashed_cases {arg : S8} (h : dashed arg = true) : isoption arg = true ∨ arg = S "-" := by
  obtain ⟨chars, rfl⟩ := dashed_iff.mp h
  cases chars with
  | nil => exact .inr rfl
  | cons x chars => exact .inl rfl

theorem isoption_dashed {arg : S8} (h : isoption arg = true) : dashed arg = true := by
  unfold isoption at h
  split at h
  · rfl
  · cases h

section

variable (oswrite oswrite₂ : List S8 → S8 → Bool)

theorem parsechars_spec (chars : S8) (c : Cmdconfig) :
    ((parsechars oswrite oswrite₂ chars c).2 = .OK ↔ ∀ x ∈ chars, x = 0x65 ∨ x = 0x69) ∧
      (parsechars oswrite oswrite₂ chars c).1.optind = c.optind := by
  have hexit : Optstatus.EXIT ≠ .OK := by decide
  have herr : Optstatus.ERR ≠ .OK := by decide
  induction chars generalizing c with
  | nil => exact ⟨iff_of_true rfl (List.forall_mem_nil _), rfl⟩
  | cons x chars ih =>
    rw [List.forall_mem_cons]
    unfold parsechars
    split
    · next he =>
      rw [and_iff_right (Or.inl he)]
      exact ih _
    · next he =>
      split
      · next hh =>
        -- help ends the run
        refine ⟨iff_of_false ?_ fun h => ?_, rfl⟩
        · show (if (flush oswrite (prints8 oswrite c.out usage)).err then Optstatus.ERR else .EXIT) ≠ .OK
          split
          · exact herr
          · exact hexit
        · rw [hh] at h
          exact absurd h.1 (by decide)
      · split
        · next hi =>
          rw [and_iff_right (Or.inr hi)]
          exact ih _
        · next hi => exact ⟨iff_of_false herr fun h => h.1.elim he hi, rfl⟩

theorem parseargs_spec (args : List S8) (c : Cmdconfig) :
    ((parseargs oswrite oswrite₂ args c).2 = .OK ↔ ∀ arg ∈ args.takeWhile dashed, Accepted arg) ∧
      ((parseargs oswrite oswrite₂ args c).2 = .OK →
        (parseargs oswrite oswrite₂ args c).1.optind = c.optind + (args.takeWhile dashed).length) := by
  induction args generalizing c with
  | nil => exact ⟨iff_of_true rfl (List.forall_mem_nil _), fun _ => rfl⟩
  | cons arg args ih =>
    unfold parseargs
    split
    · rename_i chars
      obtain ⟨hletters, hsame⟩ := parsechars_spec oswrite oswrite₂ chars c
      rw [List.takeWhile_cons_of_pos (dashed_cons chars), List.forall_mem_cons, List.length_cons]
      have haccepted : Accepted (0x2d :: chars) ↔ (parsechars oswrite oswrite₂ chars c).2 = .OK := hletters.symm
      rw [haccepted]
      split
      · rename_i c' hrun
        rw [hrun] at hsame ⊢
        obtain ⟨hok, hcount⟩ := ih { c' with optind := c'.optind + 1 }
        refine ⟨hok.trans (and_iff_right rfl).symm, fun h => (hcount h).trans ?_⟩
        have hsame : c'.optind = c.optind := hsame
        show c'.optind + 1 + _ = _
        omega
      · rename_i hrun
        have hnot : (parsechars oswrite oswrite₂ chars c).2 ≠ .OK := fun h => hrun _ (Prod.ext rfl h)
        exact ⟨iff_of_false hnot fun h => hnot h.1, fun h => absurd h hnot⟩
    · rename_i hnot
      have hother : ¬ dashed arg = true := fun h => (dashed_iff.mp h).elim hnot
      rw [List.takeWhile_cons_of_neg hother]
      exact ⟨iff_of_true rfl (List.forall_mem_nil _), fun _ => rfl⟩

/-- The options are accepted, and the index is behind the last argument with a dash. -/
theorem parsed_spec (argv : List S8) :
    ((parsed oswrite oswrite₂ argv).2 = .OK ↔ ∀ arg ∈ (argv.drop 1).takeWhile dashed, Accepted arg) ∧
      ((parsed oswrite oswrite₂ argv).2 = .OK → (parsed oswrite oswrite₂ argv).1.optind =
        (if argv.length = 0 then 0 else 1) + ((argv.drop 1).takeWhile dashed).length) := by
  have hspec := parseargs_spec oswrite oswrite₂ (argv.drop 1)
    ⟨newu8buf, newu8buf, if argv.length = 0 then 0 else 1, false, false⟩
  unfold parsed parseopts
  simp only [drop_first]
  split
  · rename_i c hrun
    rw [hrun] at hspec
    refine ⟨hspec.1, fun _ => Eq.trans ?_ (hspec.2 rfl)⟩
    show (if (!c.imports && !c.exports) = true then _ else c).optind = c.optind
    split <;> rfl
  · exact hspec

theorem listedpaths_eq {argv : List S8} (h : (parsed oswrite oswrite₂ argv).2 = .OK) :
    listedpaths oswrite oswrite₂ argv = orstdin ((argv.drop 1).dropWhile dashed) := by
  unfold listedpaths paths orstdin
  rw [(parsed_spec oswrite oswrite₂ argv).2 h]
  cases argv with
  | nil => rfl
  | cons name args =>
    show (if 1 + (args.takeWhile dashed).length = args.length + 1 then [S "-"]
      else (name :: args).drop (1 + (args.takeWhile dashed).length)) = _
    have hsplit : args.takeWhile dashed ++ args.dropWhile dashed = args := List.takeWhile_append_dropWhile
    have hlen : (args.takeWhile dashed).length + (args.dropWhile dashed).length = args.length := by
      rw [← List.length_append, hsplit]
    have hdrop : (args.takeWhile dashed ++ args.dropWhile dashed).drop (args.takeWhile dashed).length =
      args.dropWhile dashed := List.drop_left
    rw [hsplit] at hdrop
    rw [Nat.add_comm 1, List.drop_succ_cons, hdrop, ← hlen]
    show _ = if args.dropWhile dashed = [] then [S "-"] else args.dropWhile dashed
    have hnone : (args.takeWhile dashed).length + 1 =
        (args.takeWhile dashed).length + (args.dropWhile dashed).length + 1 ↔ args.dropWhile dashed = [] := by
      rw [← List.length_eq_zero_iff]
      omega
    simp only [hnone]

/-! ## What is processed -/

/-- The paths that the loop of `peports` goes over: none, unless the options are accepted. -/
def processed (argv : List S8) : List S8 :=
  if (parsed oswrite oswrite₂ argv).2 = .OK then listedpaths oswrite oswrite₂ argv else []

/-- `peports` processes the paths, in order, whatever the loader is. What follows loads nothing. -/
def Processes (argv paths : List S8) : Prop :=
  ∀ (World : Type) (load : Loader World) (scratch : Arena) (w : World), ∃ finish : Files World → Files World,
    (∀ t, (finish t).world = t.world) ∧
    peports oswrite oswrite₂ load argv scratch w =
      finish <$> paths.foldlM (fileturn oswrite oswrite₂ load (wanted oswrite oswrite₂ argv) scratch)
        ⟨1, (parsed oswrite oswrite₂ argv).1.out, (parsed oswrite oswrite₂ argv).1.err, w⟩

theorem processes_processed (argv : List S8) : Processes oswrite oswrite₂ argv (processed oswrite oswrite₂ argv) := by
  intro World load scratch w
  unfold processed
  cases hstatus : (parsed oswrite oswrite₂ argv).2 with
  | OK =>
    refine ⟨fun t => { t with out := flush oswrite t.out, ok := t.ok &&& if (flush oswrite t.out).err then 0 else 1 },
      fun _ => rfl, ?_⟩
    rw [peports_accepted hstatus, if_pos rfl]
    rfl
  | EXIT =>
    refine ⟨id, fun _ => rfl, ?_⟩
    unfold parsed at hstatus ⊢
    unfold peports
    simp only [hstatus]
    rfl
  | ERR =>
    refine ⟨fun t => { t with ok := 0 }, fun _ => rfl, ?_⟩
    unfold parsed at hstatus ⊢
    unfold peports
    simp only [hstatus]
    rfl

/-! ## The exact condition -/

/-- Behind the options there is nothing, the single dash, or what both tests stop at. -/
theorem operands_cases (argv : List S8) :
    operands argv = [] ∨ (∃ rest, operands argv = S "-" :: rest) ∨
      ∃ path rest, operands argv = path :: rest ∧ dashed path = false := by
  have hhead := List.head?_dropWhile_not isoption (argv.drop 1)
  cases h : operands argv with
  | nil => exact .inl rfl
  | cons path rest =>
    rw [show (argv.drop 1).dropWhile isoption = path :: rest from h] at hhead
    have hhead : isoption path = false := hhead
    right
    cases hdash : dashed path with
    | false => exact .inr ⟨path, rest, rfl, hdash⟩
    | true =>
      rcases dashed_cases hdash with hoption | rfl
      · rw [hoption] at hhead
        cases hhead
      · exact .inl ⟨rest, rfl⟩

/-- What `parseopts` passes over begins with the options. -/
theorem dashed_split (argv : List S8) :
    (argv.drop 1).takeWhile dashed = options argv ++ (operands argv).takeWhile dashed ∧
      (argv.drop 1).dropWhile dashed = (operands argv).dropWhile dashed := by
  have hsplit : options argv ++ operands argv = argv.drop 1 := List.takeWhile_append_dropWhile
  have hoptions : ∀ arg ∈ options argv, dashed arg = true :=
    fun arg harg => isoption_dashed (List.mem_takeWhile_imp harg)
  rw [← hsplit]
  exact ⟨List.takeWhile_append_of_pos hoptions, List.dropWhile_append_of_pos hoptions⟩

theorem orstdin_ne (paths : List S8) : orstdin paths ≠ [] := by
  unfold orstdin
  split
  · exact nofun
  · assumption

theorem processed_meant {argv : List S8} : processed oswrite oswrite₂ argv = meantpaths argv ↔
    (∀ arg ∈ (argv.drop 1).takeWhile dashed, Accepted arg) ∧
      orstdin ((operands argv).dropWhile dashed) = orstdin (operands argv) := by
  rw [← (parsed_spec oswrite oswrite₂ argv).1, ← (dashed_split argv).2]
  unfold processed meantpaths
  by_cases hstatus : (parsed oswrite oswrite₂ argv).2 = .OK
  · rw [if_pos hstatus, and_iff_right hstatus, listedpaths_eq oswrite oswrite₂ hstatus]
  · rw [if_neg hstatus]
    exact iff_of_false (orstdin_ne _).symm fun h => hstatus h.1

/-- For every argument vector: `peports` goes over the paths `processed` and loads nothing
    else, and these are the arguments behind the options, or standard input if there are
    none, if and only if the letters of the options are accepted and the single dash is
    not the first path of several. -/
theorem processed_iff (argv : List S8) :
    Processes oswrite oswrite₂ argv (processed oswrite oswrite₂ argv) ∧
    (processed oswrite oswrite₂ argv = meantpaths argv ↔
      (∀ arg ∈ options argv, Accepted arg) ∧
        ((operands argv).head? = some (S "-") → operands argv = [S "-"])) := by
  refine ⟨processes_processed oswrite oswrite₂ argv, processed_meant oswrite oswrite₂ |>.trans ?_⟩
  rw [(dashed_split argv).1, List.forall_mem_append, and_assoc]
  refine and_congr_right fun _ => ?_
  rcases operands_cases argv with h | ⟨rest, h⟩ | ⟨path, rest, h, hpath⟩
  · rw [h]
    exact iff_of_true ⟨List.forall_mem_nil _, rfl⟩ nofun
  · rw [h, List.takeWhile_cons_of_pos rfl, List.dropWhile_cons_of_pos rfl]
    constructor
    · rintro ⟨-, hsame⟩ -
      -- what is left behind the dash is shorter than the paths
      have hle : (rest.dropWhile dashed).length ≤ rest.length := (List.dropWhile_sublist dashed).length_le
      unfold orstdin at hsame
      rw [if_neg (List.cons_ne_nil _ _)] at hsame
      split at hsame
      · exact hsame.symm
      · have hlen := congrArg List.length hsame
        rw [List.length_cons] at hlen
        omega
    · intro halone
      obtain rfl : rest = [] := (List.cons.inj (halone rfl)).2
      exact ⟨List.forall_mem_singleton.mpr nofun, rfl⟩
  · have hnot : ¬ dashed path = true := by rw [hpath]; exact nofun
    rw [h, List.takeWhile_cons_of_neg hnot, List.dropWhile_cons_of_neg hnot]
    refine iff_of_true ⟨List.forall_mem_nil _, rfl⟩ fun hhead => ?_
    rw [Option.some.inj hhead] at hpath
    cases hpath

/-! ## What the system is asked for -/

/-- No file is opened and standard input is empty; the world is what was asked for. -/
def recorder : Os (List S8) :=
  ⟨fun _ => 0, fun w path => (false, w ++ [path]), fun w path _ => ([], w ++ [path]), fun _ _ _ => Nat.zero_le _⟩

theorem readall_recorder (path : S8) (avail : Nat) (w : List S8) :
    readall recorder path avail w = ([], w ++ [path]) := by
  rw [readall]
  rfl

theorem osload_recorder {path : S8} (h : path.length < 0x80000000) (w : List S8) :
    (osload recorder w page path).2 = w ++ [path] := by
  unfold osload
  split
  · show (readall recorder path page.avail w).2 = w ++ [path]
    rw [readall_recorder]
  · rw [if_neg (by omega)]
    rfl

theorem loads_recorder {paths : List S8} (h : ∀ path ∈ paths, path.length < 0x80000000) (w : List S8) :
    (loads (osload recorder) page w paths).2 = w ++ paths := by
  induction paths generalizing w with
  | nil => exact (List.append_nil w).symm
  | cons path paths ih =>
    obtain ⟨hpath, hpaths⟩ := List.forall_mem_cons.mp h
    show (loads (osload recorder) page (osload recorder w page path).2 paths).2 = _
    rw [osload_recorder hpath, ih hpaths, List.append_assoc, List.singleton_append]

theorem processed_small {argv : List S8} (h : ∀ arg ∈ argv, arg.length < 0x80000000) :
    ∀ path ∈ processed oswrite oswrite₂ argv, path.length < 0x80000000 := by
  unfold processed listedpaths paths
  split
  · split
    · exact List.forall_mem_singleton.mpr (by decide)
    · exact fun path hpath => h path (List.mem_of_mem_drop hpath)
  · exact List.forall_mem_nil _

/-- The paths that are processed are what the system is asked for, in order. -/
theorem recorded {argv : List S8} (h : ∀ arg ∈ argv, arg.length < 0x80000000) :
    ∃ r, peports oswrite oswrite₂ (osload recorder) argv page [] = .ok r ∧
      r.world = processed oswrite oswrite₂ argv := by
  have hsmall := processed_small oswrite oswrite₂ h
  obtain ⟨finish, hworld, hrun⟩ := processes_processed oswrite oswrite₂ argv _ (osload recorder) page []
  have hloaded := loads_loaded recorder (show page.fin - page.beg ≤ 0x20000000 by decide) hsmall []
  obtain ⟨err, hfiles⟩ := files_outcomes
    (t := ⟨1, (parsed oswrite oswrite₂ argv).1.out, (parsed oswrite oswrite₂ argv).1.err, []⟩) oswrite oswrite₂
    (wanted oswrite oswrite₂ argv) rfl hloaded
  rw [hfiles] at hrun
  refine ⟨_, hrun, ?_⟩
  rw [hworld]
  exact loads_recorder hsmall []

end

/-- Standard input is the first of two paths, and only the second is asked for. -/
theorem first_dash_lost :
    let argv := [S "peports", S "-", S "a.dll"]
    (∃ r, peports (fun _ _ => true) (fun _ _ => true) (osload recorder) argv page [] = .ok r ∧ r.world = [S "a.dll"]) ∧
      meantpaths argv = [S "-", S "a.dll"] ∧
      processed (fun _ _ => true) (fun _ _ => true) argv ≠ meantpaths argv := by
  intro argv
  have hprocessed : processed (fun _ _ => true) (fun _ _ => true) argv = [S "a.dll"] := by decide
  have hsmall : ∀ arg ∈ argv, arg.length < 0x80000000 := by decide
  obtain ⟨r, hrun, hworld⟩ := recorded (fun _ _ => true) (fun _ _ => true) hsmall
  exact ⟨⟨r, hrun, hworld.trans hprocessed⟩, by decide, by rw [hprocessed]; decide⟩

end GnuWindows.Peports
