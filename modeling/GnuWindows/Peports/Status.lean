/-
  GnuWindows.Peports.Status — the exit status, and what a file that fails leaves of the
  others (`peports`).

  How a file ends and what is printed of it depends on what was loaded, not on what was
  printed before (`outcome`). So the outcomes of the files tell what is written, one after
  the other (`written`), and a file that throws changes nothing for those after it.

  As built, the turn that catches a throw ends in `ok &= 1`, which keeps the status.

  Proved: `peports_status_iff`, the status is the one that is meant if and only if the
  options are not accepted, every file is processed, or a write fails.
-/
import GnuWindows.Peports.Main
import GnuWindows.Peports.Image
import GnuWindows.Peports.Safety

namespace GnuWindows.Peports

open GnuWindows.Lib.Hoare (Comp Ends Says)
open GnuWindows.PkgConfig (S8 S)

/-! ## What is written -/

section

variable (oswrite : List S8 → S8 → Bool)

/-- No chunk failed to be written. -/
def Allwritten (chunks : List S8) : Prop :=
  ∀ before chunk after, chunks = before ++ chunk :: after → oswrite before chunk = true

variable {oswrite}

theorem allwritten_nil : Allwritten oswrite [] := fun before chunk after h => by simp at h

theorem allwritten_snoc {chunks : List S8} {chunk : S8} :
    Allwritten oswrite (chunks ++ [chunk]) ↔ Allwritten oswrite chunks ∧ oswrite chunks chunk = true := by
  constructor
  · intro h
    refine ⟨fun before c after hc => h before c (after ++ [chunk]) ?_, h chunks chunk [] rfl⟩
    rw [hc, List.append_assoc, List.cons_append]
  · rintro ⟨hall, hlast⟩ before c after hc
    rcases List.eq_nil_or_concat after with rfl | ⟨after, last, rfl⟩
    · obtain ⟨rfl, h⟩ := List.append_inj' hc rfl
      obtain rfl : chunk = c := List.head_eq_of_cons_eq h
      exact hlast
    · rw [List.concat_eq_append, ← List.cons_append, ← List.append_assoc] at hc
      exact hall before c after (List.append_inj' hc rfl).1

/-- The error of a buffer tells whether a write failed. -/
def U8buf.Tracked (oswrite : List S8 → S8 → Bool) (b : U8buf) : Prop := b.err = false ↔ Allwritten oswrite b.chunks

theorem newu8buf_tracked : newu8buf.Tracked oswrite := ⟨fun _ => allwritten_nil, fun _ => rfl⟩

/-- A chunk is written. -/
theorem tracked_snoc {chunks : List S8} (h : Allwritten oswrite chunks) (chunk : S8) :
    (!oswrite chunks chunk) = false ↔ Allwritten oswrite (chunks ++ [chunk]) := by
  rw [allwritten_snoc, Bool.not_eq_false']
  exact ⟨fun hw => ⟨h, hw⟩, And.right⟩

theorem flush_tracked {b : U8buf} (h : b.Tracked oswrite) : (flush oswrite b).Tracked oswrite := by
  unfold flush
  split
  · exact tracked_snoc (h.mp (And.left ‹_›)) b.buf
  · exact h

theorem prints8_tracked {b : U8buf} (h : b.Tracked oswrite) (s : S8) : (prints8 oswrite b s).Tracked oswrite :=
  prints8_keeps oswrite (P := fun chunks err => err = false ↔ Allwritten oswrite chunks)
    (fun _ chunk h => tracked_snoc (h.mp rfl) chunk) b s h

/-- A failed write stays failed. -/
theorem prints8_ok {b : U8buf} {s : S8} (h : (prints8 oswrite b s).err = false) : b.err = false := by
  cases herr : b.err with
  | false => rfl
  | true => rw [prints8_err oswrite herr, herr] at h; cases h

theorem flush_ok {b : U8buf} (h : (flush oswrite b).err = false) :
    b.err = false ∧ (flush oswrite b).buf = [] ∧ (flush oswrite b).total = b.total := by
  cases herr : b.err with
  | true =>
    rw [flush, if_neg (by simp [herr]), herr] at h
    cases h
  | false =>
    by_cases hbuf : b.buf = []
    · rw [flush, if_neg (by simp [hbuf])]
      exact ⟨rfl, hbuf, rfl⟩
    · rw [flush, if_pos ⟨herr, hbuf⟩]
      refine ⟨rfl, rfl, ?_⟩
      simp only [U8buf.total, List.flatten_append, List.flatten_singleton, List.append_nil]

end

/-! ## Options -/

section

variable (oswrite oswrite₂ : List S8 → S8 → Bool)

/-- No option is `-h`. -/
def Nohelp (argv : List S8) : Prop := ∀ arg ∈ (argv.drop 1).takeWhile fun arg => arg.head? == some 0x2d, 0x68 ∉ arg

/-- What becomes of the options. -/
def parsed (argv : List S8) : Cmdconfig × Optstatus :=
  parseopts oswrite oswrite₂ argv ⟨newu8buf, newu8buf, 0, false, false⟩

theorem parsechars_nohelp {chars : S8} (h : 0x68 ∉ chars) (c : Cmdconfig) :
    (parsechars oswrite oswrite₂ chars c).1.out = c.out ∧ (parsechars oswrite oswrite₂ chars c).2 ≠ .EXIT := by
  induction chars generalizing c with
  | nil => exact ⟨rfl, nofun⟩
  | cons x chars ih =>
    rw [List.mem_cons, not_or] at h
    unfold parsechars
    split
    · exact ih h.2 _
    · rw [if_neg (Ne.symm h.1)]
      split
      · exact ih h.2 _
      · exact ⟨rfl, nofun⟩

theorem parseargs_nohelp {args : List S8} (h : ∀ arg ∈ args.takeWhile fun arg => arg.head? == some 0x2d, 0x68 ∉ arg)
    (c : Cmdconfig) :
    (parseargs oswrite oswrite₂ args c).1.out = c.out ∧ (parseargs oswrite oswrite₂ args c).2 ≠ .EXIT := by
  induction args generalizing c with
  | nil => exact ⟨rfl, nofun⟩
  | cons arg args ih =>
    unfold parseargs
    split
    · rename_i chars
      rw [List.takeWhile_cons_of_pos rfl, List.forall_mem_cons, List.mem_cons, not_or] at h
      have hchars := parsechars_nohelp oswrite oswrite₂ h.1.2 c
      split
      · rename_i c' hrun
        rw [hrun] at hchars
        obtain ⟨hout, hexit⟩ := ih h.2 { c' with optind := c'.optind + 1 }
        exact ⟨hout.trans hchars.1, hexit⟩
      · exact hchars
    · exact ⟨rfl, nofun⟩

/-- The index begins behind the program's name, if there is one. -/
theorem drop_first (argv : List S8) : argv.drop (if argv.length = 0 then 0 else 1) = argv.drop 1 := by
  cases argv with
  | nil => rfl
  | cons arg args => rfl

theorem parsed_nohelp {argv : List S8} (h : Nohelp argv) :
    (parsed oswrite oswrite₂ argv).1.out = newu8buf ∧ (parsed oswrite oswrite₂ argv).2 ≠ .EXIT := by
  have hrun := parseargs_nohelp oswrite oswrite₂ h
    ⟨newu8buf, newu8buf, if argv.length = 0 then 0 else 1, false, false⟩
  unfold parsed parseopts
  simp only [drop_first]
  split
  · rename_i c hc
    rw [hc] at hrun
    refine ⟨?_, nofun⟩
    show (if (!c.imports && !c.exports) = true then { c with imports := true, exports := true } else c).out = newu8buf
    split
    · exact hrun.1
    · exact hrun.1
  · exact hrun

end

/-! ## What is loaded -/

section

variable {World : Type} (load : Loader World)

/-- The paths that are listed. -/
def paths (argv : List S8) (optind : Nat) : List S8 := if optind = argv.length then [S "-"] else argv.drop optind

/-- What is loaded of the paths, and the world after it. -/
def loads (scratch : Arena) (w : World) : List S8 → List (Pe (Slice × Arena)) × World
  | [] => ([], w)
  | path :: paths =>
    let loaded := load w scratch path
    let rest := loads scratch loaded.2 paths
    (loaded.1 :: rest.1, rest.2)

theorem loads_append (scratch : Arena) (w : World) (xs ys : List S8) :
    loads load scratch w (xs ++ ys) =
      ((loads load scratch w xs).1 ++ (loads load scratch (loads load scratch w xs).2 ys).1,
        (loads load scratch (loads load scratch w xs).2 ys).2) := by
  induction xs generalizing w with
  | nil => rfl
  | cons x xs ih => simp only [List.cons_append, loads, ih]

/-- A file is loaded up to a length, or something is thrown. -/
def Loaded (loaded : Pe (Slice × Arena)) : Prop :=
  ∃ result, loaded = Comp.ofExcept result ∧
    Ends result (fun r => ∀ dll, r.1 = some dll → dll.length ≤ 0x1c000000) Thrown

variable {load} in
theorem loads_all {scratch : Arena} {paths : List S8} (h : ∀ path ∈ paths, ∀ w, Loaded (load w scratch path).1)
    (w : World) : ∀ l ∈ (loads load scratch w paths).1, Loaded l := by
  induction paths generalizing w with
  | nil => exact fun l hl => nomatch hl
  | cons path paths ih =>
    rw [List.forall_mem_cons] at h
    exact List.forall_mem_cons.mpr ⟨h.1 w, ih h.2 _⟩

variable (os : Os World)

theorem load_loaded {scratch : Arena} (h : scratch.fin - scratch.beg ≤ 0x20000000) (path : S8) (w : World) :
    Loaded (scratch.load os path w).1 := by
  refine ⟨.ok _, rfl, fun dll hdll => ?_⟩
  obtain rfl := Option.some.inj hdll
  have havail : scratch.avail ≤ 0x1c000000 := by
    unfold Arena.avail
    omega
  exact (readall_le os path scratch.avail w).trans havail

theorem osload_loaded {scratch : Arena} (h : scratch.fin - scratch.beg ≤ 0x20000000) {path : S8}
    (hpath : path.length < 0x80000000) (w : World) : Loaded (osload os w scratch path).1 := by
  unfold osload
  split
  · exact load_loaded os h path w
  rw [if_neg (by omega)]
  have hroom : Gives Thrown (alloc scratch (os.widelen path + 1) 2 2) fun _ => True := alloc_gives thrown (by omega)
  have hroom := hroom.outcome newu8buf trivial
  split
  · exact ⟨.error _, rfl, hroom.of_error ‹_›⟩
  · split
    · exact ⟨.ok (none, scratch), rfl, fun dll hdll => nomatch hdll⟩
    · exact load_loaded os h path _

theorem loads_loaded {scratch : Arena} (h : scratch.fin - scratch.beg ≤ 0x20000000) {paths : List S8}
    (hpaths : ∀ path ∈ paths, path.length < 0x80000000) (w : World) :
    ∀ l ∈ (loads (osload os) scratch w paths).1, Loaded l :=
  loads_all (fun path hpath w => osload_loaded os h (hpaths path hpath) w) w

end

/-! ## Outcomes -/

section

variable (oswrite : List S8 → S8 → Bool)

/-- How a file that was loaded ends and what is printed of it, from any buffer. -/
def Outcome (conf : Config) (loaded : Pe (Slice × Arena)) (o : Except Fault Unit × S8) : Prop :=
  ∀ b, (processloaded oswrite conf loaded).run b = (o.1, prints8 oswrite b o.2)

noncomputable def outcome (conf : Config) (loaded : Pe (Slice × Arena)) : Except Fault Unit × S8 :=
  Classical.epsilon (Outcome oswrite conf loaded)

theorem processloaded_any (conf : Config) {loaded : Pe (Slice × Arena)} (h : Loaded loaded) :
    Prints oswrite (processloaded oswrite conf loaded) fun r _ => Ends r (fun _ => True) Thrown := by
  obtain ⟨result, rfl, hends⟩ := h
  cases result with
  | error e => exact Says.throw hends
  | ok r =>
    obtain ⟨dll, scratch⟩ := r
    cases dll with
    | none => exact Says.throw ⟨_, rfl⟩
    | some dll =>
      refine (processpe_any conf scratch dll).self.mono fun r text hr => ?_
      have hsmall : Slice.Small (some dll) := by
        have hle : dll.length ≤ 0x1c000000 := hends dll rfl
        show (dll.length : Int) ≤ loadmax
        unfold loadmax
        omega
      have hgives := (processpe_gives oswrite conf scratch hsmall).outcome newu8buf trivial
      rw [hr.2] at hgives
      exact hgives

/-- What was loaded has an outcome: it is processed, or something is thrown. -/
theorem outcome_loaded (conf : Config) {loaded : Pe (Slice × Arena)} (h : Loaded loaded) :
    Outcome oswrite conf loaded (outcome oswrite conf loaded) ∧
      Ends (outcome oswrite conf loaded).1 (fun _ => True) Thrown := by
  obtain ⟨r, text, hends, hrun⟩ := processloaded_any oswrite conf h
  have hspec : Outcome oswrite conf loaded (outcome oswrite conf loaded) := Classical.epsilon_spec ⟨(r, text), hrun⟩
  refine ⟨hspec, ?_⟩
  obtain rfl : r = (outcome oswrite conf loaded).1 := congrArg Prod.fst ((hrun newu8buf).symm.trans (hspec newu8buf))
  exact hends

/-- What is printed of a file; a throw flushes it. -/
def printed (b : U8buf) (o : Except Fault Unit × S8) : U8buf :=
  match o.1 with
  | .ok () => prints8 oswrite b o.2
  | .error _ => flush oswrite (prints8 oswrite b o.2)

/-- Standard output, from the outcomes of the files. -/
def written (outcomes : List (Except Fault Unit × S8)) : U8buf :=
  flush oswrite (outcomes.foldl (printed oswrite) newu8buf)

variable {oswrite}

theorem printed_tracked {b : U8buf} (h : b.Tracked oswrite) (o : Except Fault Unit × S8) :
    (printed oswrite b o).Tracked oswrite ∧
      ((printed oswrite b o).err = false → b.err = false ∧ (printed oswrite b o).total = b.total ++ o.2) := by
  have htracked := prints8_tracked h o.2
  unfold printed
  split
  · exact ⟨htracked, fun herr => ⟨prints8_ok herr, total_prints8 oswrite herr⟩⟩
  · refine ⟨flush_tracked htracked, fun herr => ?_⟩
    obtain ⟨hok, -, hsame⟩ := flush_ok herr
    exact ⟨prints8_ok hok, hsame.trans (total_prints8 oswrite hok)⟩

theorem foldl_printed {b : U8buf} (h : b.Tracked oswrite) (outcomes : List (Except Fault Unit × S8)) :
    (outcomes.foldl (printed oswrite) b).Tracked oswrite ∧ ((outcomes.foldl (printed oswrite) b).err = false →
      b.err = false ∧ (outcomes.foldl (printed oswrite) b).total = b.total ++ (outcomes.map Prod.snd).flatten) := by
  induction outcomes generalizing b with
  | nil => exact ⟨h, fun herr => ⟨herr, (List.append_nil _).symm⟩⟩
  | cons o outcomes ih =>
    obtain ⟨htracked, hprinted⟩ := printed_tracked h o
    obtain ⟨hall, hrest⟩ := ih htracked
    refine ⟨hall, fun herr => ?_⟩
    obtain ⟨hok, htotal⟩ := hrest herr
    refine ⟨(hprinted hok).1, ?_⟩
    rw [List.foldl_cons, htotal, (hprinted hok).2, List.map_cons, List.flatten_cons, List.append_assoc]

/-- When no write fails, what is written is what the files print, one after the other. -/
theorem written_flatten {outcomes : List (Except Fault Unit × S8)}
    (h : Allwritten oswrite (written oswrite outcomes).chunks) :
    (written oswrite outcomes).chunks.flatten = (outcomes.map Prod.snd).flatten := by
  obtain ⟨htracked, hfold⟩ := foldl_printed newu8buf_tracked outcomes
  obtain ⟨hok, hbuf, htotal⟩ := flush_ok ((flush_tracked htracked).mpr h)
  have hempty : (written oswrite outcomes).total = (written oswrite outcomes).chunks.flatten := by
    unfold U8buf.total
    rw [written, hbuf, List.append_nil]
  rw [← hempty]
  exact htotal.trans (hfold hok).2

theorem written_tracked (outcomes : List (Except Fault Unit × S8)) : (written oswrite outcomes).Tracked oswrite :=
  flush_tracked (foldl_printed newu8buf_tracked outcomes).1

end

/-! ## The loop over the paths -/

section

variable {World : Type} {load : Loader World} (oswrite oswrite₂ : List S8 → S8 → Bool)

theorem fileturn_outcome (conf : Config) {scratch : Arena} {t : Files World} {path : S8} (hok : t.ok = 1)
    (h : Loaded (load t.world scratch path).1) :
    ∃ err, fileturn oswrite oswrite₂ load conf scratch t path =
      .ok ⟨1, printed oswrite t.out (outcome oswrite conf (load t.world scratch path).1), err,
        (load t.world scratch path).2⟩ := by
  obtain ⟨hspec, hends⟩ := outcome_loaded oswrite conf h
  unfold fileturn processpath printed
  simp only
  rw [hspec t.out]
  cases hr : (outcome oswrite conf (load t.world scratch path).1).1 with
  | ok u => exact ⟨t.err, by rw [← hok]⟩
  | error e =>
    obtain ⟨reason, rfl⟩ := hends.of_error hr
    -- `ok &= 1`
    rw [hok]
    exact ⟨_, rfl⟩

/-- The loop over the paths keeps the status, and prints what each of them prints. -/
theorem files_outcomes (conf : Config) {scratch : Arena} {paths : List S8} {t : Files World} (hok : t.ok = 1)
    (h : ∀ l ∈ (loads load scratch t.world paths).1, Loaded l) :
    ∃ err, paths.foldlM (fileturn oswrite oswrite₂ load conf scratch) t =
      .ok ⟨1, ((loads load scratch t.world paths).1.map (outcome oswrite conf)).foldl (printed oswrite) t.out, err,
        (loads load scratch t.world paths).2⟩ := by
  induction paths generalizing t with
  | nil => exact ⟨t.err, by rw [← hok]; rfl⟩
  | cons path paths ih =>
    obtain ⟨hl, hrest⟩ := List.forall_mem_cons.mp h
    obtain ⟨err, hturn⟩ := fileturn_outcome oswrite oswrite₂ conf hok hl
    obtain ⟨err', hrun⟩ := ih (t := ⟨1, _, err, (load t.world scratch path).2⟩) rfl hrest
    refine ⟨err', ?_⟩
    rw [List.foldlM_cons, hturn]
    exact hrun

end

/-! ## The status -/

section

variable {World : Type} (load : Loader World) (oswrite oswrite₂ : List S8 → S8 → Bool)

/-- What the options ask for. -/
def wanted (argv : List S8) : Config :=
  ⟨(parsed oswrite oswrite₂ argv).1.exports, (parsed oswrite oswrite₂ argv).1.imports⟩

def listedpaths (argv : List S8) : List S8 := paths argv (parsed oswrite oswrite₂ argv).1.optind

/-- The outcomes of files, one after the other. -/
noncomputable def outcomes (conf : Config) (scratch : Arena) (w : World) (paths : List S8) :
    List (Except Fault Unit × S8) :=
  (loads load scratch w paths).1.map (outcome oswrite conf)

variable {load oswrite oswrite₂}

/-- A file takes away its own outcome. -/
theorem outcomes_without (conf : Config) {scratch : Arena} {w : World} {xs ys : List S8} {path : S8}
    (h : (loads load scratch (loads load scratch w (xs ++ [path])).2 ys).1 =
      (loads load scratch (loads load scratch w xs).2 ys).1) :
    ∃ o after, outcomes load oswrite conf scratch w (xs ++ path :: ys) =
        outcomes load oswrite conf scratch w xs ++ o :: after ∧
      outcomes load oswrite conf scratch w (xs ++ ys) = outcomes load oswrite conf scratch w xs ++ after := by
  refine ⟨outcome oswrite conf (load (loads load scratch w xs).2 scratch path).1,
    (loads load scratch (loads load scratch w xs).2 ys).1.map (outcome oswrite conf), ?_, ?_⟩
  · rw [loads_append] at h
    rw [outcomes, loads_append, List.map_append, ← h]
    rfl
  · rw [outcomes, loads_append, List.map_append]
    rfl

/-- The loop over the paths, and what follows it. -/
theorem peports_accepted {argv : List S8} (h : (parsed oswrite oswrite₂ argv).2 = .OK) (scratch : Arena) (w : World) :
    peports oswrite oswrite₂ load argv scratch w = (do
      let t ← (listedpaths oswrite oswrite₂ argv).foldlM
        (fileturn oswrite oswrite₂ load (wanted oswrite oswrite₂ argv) scratch)
        ⟨1, (parsed oswrite oswrite₂ argv).1.out, (parsed oswrite oswrite₂ argv).1.err, w⟩
      .ok { t with out := flush oswrite t.out, ok := t.ok &&& if (flush oswrite t.out).err then 0 else 1 }) := by
  unfold peports listedpaths wanted paths
  unfold parsed at h ⊢
  generalize parseopts oswrite oswrite₂ argv ⟨newu8buf, newu8buf, 0, false, false⟩ = conf at h ⊢
  obtain ⟨conf, status⟩ := conf
  obtain rfl : status = .OK := h
  by_cases hnone : conf.optind = argv.length
  · simp only [if_pos hnone]
    rfl
  · simp only [if_neg hnone]

/-- `ok &= !out->err` -/
theorem status_and (err : Bool) : (1 : UInt32) &&& (if err then 0 else 1) = if err then 0 else 1 := by
  cases err <;> rfl

/-- What the loop leaves to be flushed is all that is written. -/
theorem peports_runs {argv : List S8} {scratch : Arena} {w : World} (hstatus : (parsed oswrite oswrite₂ argv).2 = .OK)
    (hout : (parsed oswrite oswrite₂ argv).1.out = newu8buf)
    (h : ∀ l ∈ (loads load scratch w (listedpaths oswrite oswrite₂ argv)).1, Loaded l) :
    let out := written oswrite (outcomes load oswrite (wanted oswrite oswrite₂ argv) scratch w
      (listedpaths oswrite oswrite₂ argv))
    ∃ err, peports oswrite oswrite₂ load argv scratch w =
      .ok ⟨if out.err then 0 else 1, out, err, (loads load scratch w (listedpaths oswrite oswrite₂ argv)).2⟩ := by
  obtain ⟨err, hrun⟩ := files_outcomes (t := ⟨1, newu8buf, (parsed oswrite oswrite₂ argv).1.err, w⟩) oswrite oswrite₂
    (wanted oswrite oswrite₂ argv) rfl h
  refine ⟨err, ?_⟩
  rw [peports_accepted hstatus, hout, hrun]
  show Except.ok _ = Except.ok _
  congr 2
  exact status_and _

theorem peports_stops {argv : List S8} {scratch : Arena} {w : World} (h : (parsed oswrite oswrite₂ argv).2 ≠ .OK) :
    peports oswrite oswrite₂ load argv scratch w =
      .ok ⟨if (parsed oswrite oswrite₂ argv).2 = .EXIT then 1 else 0, (parsed oswrite oswrite₂ argv).1.out,
        (parsed oswrite oswrite₂ argv).1.err, w⟩ := by
  unfold parsed at h ⊢
  unfold peports
  cases hstatus : (parseopts oswrite oswrite₂ argv ⟨newu8buf, newu8buf, 0, false, false⟩).2 with
  | OK => exact absurd hstatus h
  | EXIT => simp only [hstatus, if_pos]
  | ERR => simp only [hstatus, reduceCtorEq, if_false]

variable (os : Os World) (oswrite oswrite₂)

/-- The status that is meant. -/
def Meant (argv : List S8) (outcomes : List (Except Fault Unit × S8)) (r : Files World) : Prop :=
  r.ok ≠ 0 ↔ (parsed oswrite oswrite₂ argv).2 = .OK ∧ (∀ o ∈ outcomes, o.1 = .ok ()) ∧ Allwritten oswrite r.out.chunks

/-- For every command line without `-h`, all that the system gives and every arena of the
    program's size at most: peports returns the status that is meant if and only if the
    options are not accepted, every file is processed, or a write fails.

    What is written are the outcomes of the files, one after the other. A file that fails
    takes its own away and no other, as long as what is loaded after it is the same. -/
theorem peports_status_iff (argv : List S8) (scratch : Arena) (w : World) (hargv : Nohelp argv)
    (hlen : ∀ arg ∈ argv, arg.length < 0x80000000) (hscratch : scratch.fin - scratch.beg ≤ 0x20000000) :
    let all := outcomes (osload os) oswrite (wanted oswrite oswrite₂ argv) scratch w (listedpaths oswrite oswrite₂ argv)
    (∃ r, peports oswrite oswrite₂ (osload os) argv scratch w = .ok r ∧
      (Meant oswrite oswrite₂ argv all r ↔
        ((parsed oswrite oswrite₂ argv).2 = .OK → (∀ o ∈ all, o.1 = .ok ()) ∨
          ¬ Allwritten oswrite (written oswrite all).chunks)) ∧
      ((parsed oswrite oswrite₂ argv).2 = .OK → r.out = written oswrite all ∧
        (Allwritten oswrite r.out.chunks → r.out.chunks.flatten = (all.map Prod.snd).flatten))) ∧
    (∀ l ∈ (loads (osload os) scratch w (listedpaths oswrite oswrite₂ argv)).1,
      Outcome oswrite (wanted oswrite oswrite₂ argv) l (outcome oswrite (wanted oswrite oswrite₂ argv) l)) ∧
    ∀ xs path ys, listedpaths oswrite oswrite₂ argv = xs ++ path :: ys →
      (loads (osload os) scratch (loads (osload os) scratch w (xs ++ [path])).2 ys).1 =
        (loads (osload os) scratch (loads (osload os) scratch w xs).2 ys).1 →
      ∃ o after, all = outcomes (osload os) oswrite (wanted oswrite oswrite₂ argv) scratch w xs ++ o :: after ∧
        outcomes (osload os) oswrite (wanted oswrite oswrite₂ argv) scratch w (xs ++ ys) =
          outcomes (osload os) oswrite (wanted oswrite oswrite₂ argv) scratch w xs ++ after := by
  intro all
  have hpaths : ∀ path ∈ listedpaths oswrite oswrite₂ argv, path.length < 0x80000000 := by
    unfold listedpaths paths
    split
    · exact fun path hpath => List.mem_singleton.mp hpath ▸ by decide
    · exact fun path hpath => hlen path (List.mem_of_mem_drop hpath)
  have hloaded := loads_loaded os hscratch hpaths w
  refine ⟨?_, fun l hl => (outcome_loaded _ _ (hloaded l hl)).1, fun xs path ys hsplit hsame => ?_⟩
  · obtain ⟨hout, hexit⟩ := parsed_nohelp oswrite oswrite₂ hargv
    cases hstatus : (parsed oswrite oswrite₂ argv).2 with
    | EXIT => exact absurd hstatus hexit
    | ERR =>
      refine ⟨_, peports_stops (by rw [hstatus]; exact Optstatus.noConfusion), ?_, nofun⟩
      · rw [hstatus]
        exact iff_of_true (iff_of_false (fun h => h rfl) fun h => by rw [hstatus] at h; exact nomatch h.1) nofun
    | OK =>
      obtain ⟨err, hrun⟩ := peports_runs hstatus hout hloaded
      refine ⟨_, hrun, ?_, fun _ => ⟨rfl, written_flatten⟩⟩
      have hwritten : (written oswrite all).err = false ↔ Allwritten oswrite (written oswrite all).chunks :=
        written_tracked all
      show ((if (written oswrite all).err then (0 : UInt32) else 1) ≠ 0 ↔
        (parsed oswrite oswrite₂ argv).2 = .OK ∧ (∀ o ∈ all, o.1 = .ok ()) ∧
        Allwritten oswrite (written oswrite all).chunks) ↔ _
      rw [← hwritten]
      cases (written oswrite all).err with
      | true => exact iff_of_true (iff_of_false (fun h => h rfl) fun h => nomatch h.2.2) fun _ => Or.inr nofun
      | false =>
        constructor
        · exact fun h _ => Or.inl (h.mp (by decide)).2.1
        · intro h
          have hall := (h rfl).resolve_right (not_not_intro rfl)
          exact iff_of_true (by decide) ⟨hstatus, hall, rfl⟩
  · show ∃ o after, outcomes (osload os) oswrite _ scratch w (listedpaths oswrite oswrite₂ argv) = _ ∧ _
    rw [hsplit]
    exact outcomes_without _ hsame

end

/-! ## A file that cannot be loaded -/

/-- No file is opened, and standard input is empty. -/
def nofiles : Os Unit := ⟨List.length, fun _ _ => (false, ()), fun _ _ _ => ([], ()), fun _ _ _ => Nat.zero_le _⟩

/-- The only file cannot be loaded, and the status is success. -/
theorem failing_file_succeeds :
    ∃ r, peports (fun _ _ => true) (fun _ _ => true) (osload nofiles) [S "peports", S "x"] page () = .ok r ∧ r.ok = 1 ∧
      ¬ Meant (fun _ _ => true) (fun _ _ => true) [S "peports", S "x"]
        (outcomes (osload nofiles) (fun _ _ => true) ⟨true, true⟩ page () [S "x"]) r := by
  have hloaded : Loaded (pure (none, page) : Pe (Slice × Arena)) :=
    ⟨.ok (none, page), rfl, fun dll hdll => nomatch hdll⟩
  have hfirst : outcomes (osload nofiles) (fun _ _ => true) ⟨true, true⟩ page () [S "x"] =
    [outcome (fun _ _ => true) ⟨true, true⟩ (pure (none, page))] := rfl
  have hthrow : (outcome (fun _ _ => true) ⟨true, true⟩ (pure (none, page))).1 =
      .error (.throw (S "could not load file")) :=
    (congrArg Prod.fst ((outcome_loaded _ _ hloaded).1 newu8buf)).symm
  have hall : ∀ l ∈ (loads (osload nofiles) page ()
      (listedpaths (fun _ _ => true) (fun _ _ => true) [S "peports", S "x"])).1, Loaded l :=
    List.forall_mem_singleton.mpr hloaded
  obtain ⟨err, hrun⟩ := peports_runs rfl rfl hall
  rw [(written_tracked _).mpr fun _ _ _ _ => rfl] at hrun
  refine ⟨_, hrun, rfl, fun hmeant => ?_⟩
  have hok := (hmeant.mp (show (1 : UInt32) ≠ 0 by decide)).2.1
  rw [hfirst, List.forall_mem_singleton, hthrow] at hok
  cases hok

theorem peports_status_iff_nofiles :
    ∃ r, peports (fun _ _ => true) (fun _ _ => true) (osload nofiles) [S "peports", S "x"] page () = .ok r := by
  obtain ⟨⟨r, hr, -⟩, -⟩ := peports_status_iff (fun _ _ => true) (fun _ _ => true) nofiles [S "peports", S "x"] page ()
    (fun arg harg => nomatch harg) (by decide) (by decide)
  exact ⟨r, hr⟩

end GnuWindows.Peports
