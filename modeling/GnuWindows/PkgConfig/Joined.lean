/-
  GnuWindows.PkgConfig.Joined — arguments one after another, and in one argument.

  `process` carries the package read last and the operator that waits for its version from
  one argument to the next. Between two tokens of the bottom frame it does not matter
  whether a blank or the end of an argument is there: frames over it are done by then, and
  they neither see nor change what the bottom frame has left to read.

  Proved:
  - `procStep_turn`: what a token does does not depend on what is left to read, under it.
  - `process_append`: an argument with a blank in it is two arguments.
  - `processargs_joined`: any arguments are one, their texts with blanks between them.
-/
import GnuWindows.PkgConfig.Process

namespace GnuWindows.PkgConfig

open GnuWindows.Lib.BoundedStack

/-! ## Tokens -/

theorem nexttoken_space {c : UInt8} (h : tokenspace c = true) (s : S8) : nexttoken (c :: s) = nexttoken s := by
  simp [nexttoken, skiptokenspace, h]

theorem nexttoken_byte {c : UInt8} (h : tokenspace c = false) (s : S8) :
    nexttoken (c :: s) = (c :: s.takeWhile (!tokenspace ·), s.dropWhile (!tokenspace ·)) := by
  simp [nexttoken, skiptokenspace, h]

/-- A token ends at a blank, wherever the rest is read from. -/
theorem nexttoken_append (s rest : S8) :
    nexttoken (s ++ 0x20 :: rest) =
      if (nexttoken s).1 = [] then nexttoken rest else ((nexttoken s).1, (nexttoken s).2 ++ 0x20 :: rest) := by
  have hblank : tokenspace 0x20 = true := by decide
  induction s with
  | nil => exact nexttoken_space hblank rest
  | cons c s ih =>
    cases hc : tokenspace c with
    | true => rw [List.cons_append, nexttoken_space hc, nexttoken_space hc, ih]
    | false =>
      have htake : (s ++ 0x20 :: rest).takeWhile (!tokenspace ·) = s.takeWhile (!tokenspace ·) := by
        rw [List.takeWhile_append]
        split
        · rename_i hlen
          rw [List.takeWhile_cons_of_neg (by simp [hblank]), List.append_nil]
          exact ((List.takeWhile_prefix _).eq_of_length hlen).symm
        · rfl
      have hdrop : (s ++ 0x20 :: rest).dropWhile (!tokenspace ·) = s.dropWhile (!tokenspace ·) ++ 0x20 :: rest := by
        rw [List.dropWhile_append]
        split
        · rename_i hempty
          rw [List.dropWhile_cons_of_neg (by simp [hblank]), List.isEmpty_iff.mp hempty, List.nil_append]
        · rfl
      rw [List.cons_append, nexttoken_byte hc, nexttoken_byte hc, htake, hdrop, if_neg (List.cons_ne_nil _ _)]

/-! ## Turns -/

/-- What a token does: frames over its own, what its frame waits for, and the packages. -/
structure Tokenturn where
  new : List Procstate
  last : Option Nat
  op : Versop
  pending : op ≠ .ERR → last.isSome = true
  pkgs : Pkgs

/-- The frames `new` over `s`. -/
def stacked (s : Procstate) (below : List Procstate) (pkgs : Pkgs) : List Procstate → Procrun
  | [] => ⟨s, below, pkgs⟩
  | top :: new => ⟨top, new ++ s :: below, pkgs⟩

/-- The frame `s` with `tail` left to read, under the new ones. -/
def Tokenturn.over (t : Tokenturn) (s : Procstate) (tail : S8) (below : List Procstate) : Procrun :=
  stacked ⟨tail, t.last, s.depth, s.flags, t.op, t.pending⟩ below t.pkgs t.new

variable (mapfile : S8 → Filemap) (proc : Processor)

/-- A package token does not see what is left to read. -/
theorem procpackage_turn (s : Procstate) (pkgs : Pkgs) (tok : S8) (n : Nat) :
    ∃ out : Except Fail Tokenturn, ∀ arg tail below, below.length = n →
      procpackage mapfile proc ⟨{ s with arg := arg }, below, pkgs⟩ tok tail =
        out.map fun t => t.over s tail below := by
  obtain ⟨table, i, hlocated⟩ : ∃ table i, pkgs.locate (pathtorealname tok) = (table, i) := ⟨_, _, rfl⟩
  let frame (arg : S8) : Procstate := .start arg (s.depth + 1) { s.flags with pkgDirect := false }
  by_cases hloaded : (table.get i).contents.isSome = true
  · let marked := table.update i (addflags s.flags) fun _ => rfl
    by_cases hpromote : (s.flags.pkgPublic && !(table.get i).flags.pkgPublic &&
        (proc.recursive && s.depth + 1 < proc.maxdepth)) = true
    · by_cases hroom : 255 ≤ n
      · refine ⟨.error (failmaxrecurse proc.err tok), fun arg tail below hlen => ?_⟩
        simp only [procpackage, hlocated, hlen]
        rw [if_pos hloaded, if_pos hpromote, if_pos hroom]
        rfl
      · refine ⟨.ok ⟨[frame (bytes (table.get i).requires)], some i, .ERR, by simp, marked⟩,
          fun arg tail below hlen => ?_⟩
        simp only [procpackage, hlocated, hlen]
        rw [if_pos hloaded, if_pos hpromote, if_neg hroom]
        rfl
    · refine ⟨.ok ⟨[], some i, .ERR, by simp, marked⟩, fun arg tail below hlen => ?_⟩
      simp only [procpackage, hlocated]
      rw [if_pos hloaded, if_neg hpromote]
      rfl
  · cases hload : loadpackage mapfile proc.err proc.global proc.search proc.define_prefix (table.get i) tok with
    | error f =>
      refine ⟨.error f, fun arg tail below hlen => ?_⟩
      simp only [procpackage, hlocated]
      rw [if_neg hloaded, hload]
      rfl
    | ok p =>
      let loaded := table.update i (fun base => { addflags s.flags p with realname := base.realname }) fun _ => rfl
      by_cases hdescend : (proc.recursive && s.depth + 1 < proc.maxdepth) = true
      · by_cases hroom : 254 ≤ n
        · refine ⟨.error (failmaxrecurse proc.err tok), fun arg tail below hlen => ?_⟩
          simp only [procpackage, hlocated, hlen]
          rw [if_neg hloaded, hload]
          simp only
          rw [if_pos hdescend, if_pos hroom]
          rfl
        · refine ⟨.ok ⟨[frame (bytes p.requires), .start (bytes p.requiresprivate) (s.depth + 1) .none], some i, .ERR,
            by simp, loaded⟩, fun arg tail below hlen => ?_⟩
          simp only [procpackage, hlocated, hlen]
          rw [if_neg hloaded, hload]
          simp only
          rw [if_pos hdescend, if_neg hroom]
          rfl
      · refine ⟨.ok ⟨[], some i, .ERR, by simp, loaded⟩, fun arg tail below hlen => ?_⟩
        simp only [procpackage, hlocated]
        rw [if_neg hloaded, hload]
        simp only
        rw [if_neg hdescend]
        rfl

/-- What a token does depends on its frame and the packages, and on how many frames there
    are below. -/
theorem procStep_turn (s : Procstate) (pkgs : Pkgs) {tok : S8} (htok : tok ≠ []) (n : Nat) :
    ∃ out : Except Fail Tokenturn, ∀ arg tail below, nexttoken arg = (tok, tail) → below.length = n →
      procStep mapfile proc ⟨{ s with arg := arg }, below, pkgs⟩ =
        Next.ofExcept (out.map fun t => t.over s tail below) := by
  by_cases hop : s.op ≠ .ERR
  · by_cases hvalid : (!proc.ignore_versions && !validcompare s.op (compareversions
        (bytes (pkgs.get (s.last.get (s.pending hop))).version) tok)) = true
    · refine ⟨.error (failversion proc.err (pkgs.get (s.last.get (s.pending hop))) s.op tok), ?_⟩
      intro arg tail below hnext _
      simp only [procStep, hnext]
      rw [if_neg htok, dif_pos hop, if_pos hvalid]
      rfl
    · refine ⟨.ok ⟨[], none, .ERR, by simp, pkgs⟩, ?_⟩
      intro arg tail below hnext _
      simp only [procStep, hnext]
      rw [if_neg htok, dif_pos hop, if_neg hvalid]
      rfl
  · by_cases hparse : parseop tok ≠ .ERR
    · obtain hlast | ⟨i, hlast⟩ : s.last = none ∨ ∃ i, s.last = some i := by cases s.last <;> simp
      · refine ⟨.error (failoperator proc.err tok), ?_⟩
        intro arg tail below hnext _
        simp only [procStep, hnext]
        rw [if_neg htok, dif_neg hop, if_pos hparse]
        simp only [hlast]
        rfl
      · refine ⟨.ok ⟨[], some i, parseop tok, by simp, pkgs⟩, ?_⟩
        intro arg tail below hnext _
        simp only [procStep, hnext]
        rw [if_neg htok, dif_neg hop, if_pos hparse]
        simp only [hlast]
        rfl
    · obtain ⟨out, hout⟩ := procpackage_turn mapfile proc s pkgs tok n
      refine ⟨out, fun arg tail below hnext hlen => ?_⟩
      simp only [procStep, hnext]
      rw [if_neg htok, dif_neg hop, if_neg hparse, hout arg tail below hlen]

/-! ## More in the bottom frame -/

/-- More to read, after a blank. -/
def Procstate.extend (rest : S8) (s : Procstate) : Procstate := { s with arg := s.arg ++ 0x20 :: rest }

/-- The frames, top first, with more to read in the last one. -/
def extendframes (rest : S8) (s : Procstate) : List Procstate → Procstate × List Procstate
  | [] => (s.extend rest, [])
  | s' :: below => (s, (extendframes rest s' below).1 :: (extendframes rest s' below).2)

def Procrun.extend (rest : S8) (st : Procrun) : Procrun :=
  ⟨(extendframes rest st.top st.below).1, (extendframes rest st.top st.below).2, st.pkgs⟩

theorem length_extendframes (rest : S8) (s : Procstate) (below : List Procstate) :
    (extendframes rest s below).2.length = below.length := by
  induction below generalizing s with
  | nil => rfl
  | cons s' below ih => exact congrArg (· + 1) (ih s')

theorem stacked_extend (rest : S8) (s : Procstate) (below : List Procstate) (pkgs : Pkgs) (new : List Procstate) :
    (stacked s below pkgs new).extend rest =
      stacked (extendframes rest s below).1 (extendframes rest s below).2 pkgs new := by
  have hframes : ∀ new top, extendframes rest top (new ++ s :: below) =
      (top, new ++ (extendframes rest s below).1 :: (extendframes rest s below).2) := by
    intro new
    induction new with
    | nil => exact fun top => rfl
    | cons s' new ih =>
      intro top
      rw [List.cons_append, extendframes, ih]
      rfl
  cases new with
  | nil => rfl
  | cons top new =>
    rw [stacked, Procrun.extend]
    simp only [hframes]
    rfl

/-- Nothing is left to read. -/
def Procrun.AtEnd (st : Procrun) : Prop := st.below = [] ∧ (nexttoken st.top.arg).1 = []

theorem procStep_end {st : Procrun} (h : st.AtEnd) :
    procStep mapfile proc st = .stop (.ok ⟨st.top.last, st.top.op, st.top.pending, st.pkgs⟩) := by
  obtain ⟨s, below, pkgs⟩ := st
  obtain ⟨rfl, htok⟩ := h
  simp only [procStep]
  rw [if_pos htok]

/-- A frame over another one ends. -/
theorem procStep_pop {s : Procstate} (h : (nexttoken s.arg).1 = []) (s' : Procstate) (below : List Procstate)
    (pkgs : Pkgs) :
    procStep mapfile proc ⟨s, s' :: below, pkgs⟩ =
      if s.op ≠ .ERR then .stop (.error (procfail proc.err s.op (s.last.map pkgs.get))) else .go ⟨s', below, pkgs⟩ := by
  simp only [procStep]
  rw [if_pos h]

/-- Until the end a turn is the same with more in the bottom frame. -/
theorem procStep_extend {st : Procrun} (h : ¬ st.AtEnd) (rest : S8) :
    procStep mapfile proc (st.extend rest) = (procStep mapfile proc st).map (Procrun.extend rest) id ∧
      ∀ e, procStep mapfile proc st ≠ .stop (.ok e) := by
  obtain ⟨s, below, pkgs⟩ := st
  by_cases htok : (nexttoken s.arg).1 = []
  · cases below with
    | nil => exact absurd ⟨rfl, htok⟩ h
    | cons s' below =>
      simp only [Procrun.extend, extendframes, procStep_pop mapfile proc htok]
      by_cases hop : s.op ≠ .ERR
      · simp only [if_pos hop]
        exact ⟨rfl, fun e he => by cases he⟩
      · simp only [if_neg hop]
        exact ⟨rfl, fun e he => by cases he⟩
  · obtain ⟨out, hout⟩ := procStep_turn mapfile proc s pkgs htok below.length
    have hstep : procStep mapfile proc ⟨s, below, pkgs⟩ = _ := hout s.arg (nexttoken s.arg).2 below rfl rfl
    have hextend : procStep mapfile proc (Procrun.extend rest ⟨s, below, pkgs⟩) =
        Next.ofExcept (out.map fun t => (t.over s (nexttoken s.arg).2 below).extend rest) := by
      simp only [Tokenturn.over, stacked_extend]
      cases below with
      | nil => exact hout _ _ [] ((nexttoken_append _ _).trans (if_neg htok)) rfl
      | cons s' below => exact hout s.arg _ _ rfl (congrArg (· + 1) (length_extendframes rest s' below))
    rw [hextend, hstep]
    cases out with
    | error f => exact ⟨rfl, fun e he => by cases he⟩
    | ok t => exact ⟨rfl, fun e he => by cases he⟩

/-! ## The bottom frame -/

/-- The last frame. -/
def bottom (s : Procstate) : List Procstate → Procstate
  | [] => s
  | s' :: below => bottom s' below

/-- The bottom frame is that of an argument. -/
def Procrun.Grounded (st : Procrun) : Prop :=
  (bottom st.top st.below).depth = 0 ∧ (bottom st.top st.below).flags = ⟨true, true⟩

theorem stacked_bottom (s : Procstate) (below : List Procstate) (pkgs : Pkgs) (new : List Procstate) :
    bottom (stacked s below pkgs new).top (stacked s below pkgs new).below = bottom s below := by
  have hframes : ∀ new top, bottom top (new ++ s :: below) = bottom s below := by
    intro new
    induction new with
    | nil => exact fun top => rfl
    | cons s' new ih => exact fun top => ih s'
  cases new with
  | nil => rfl
  | cons top new => exact hframes new top

theorem procStep_grounded {st st' : Procrun} (hst : st.Grounded) (h : procStep mapfile proc st = .go st') :
    st'.Grounded := by
  obtain ⟨s, below, pkgs⟩ := st
  by_cases htok : (nexttoken s.arg).1 = []
  · cases below with
    | nil =>
      rw [procStep_end mapfile proc ⟨rfl, htok⟩] at h
      cases h
    | cons s' below =>
      rw [procStep_pop mapfile proc htok] at h
      split at h
      · cases h
      · cases h
        exact hst
  · obtain ⟨out, hout⟩ := procStep_turn mapfile proc s pkgs htok below.length
    have hstep : procStep mapfile proc ⟨s, below, pkgs⟩ = _ := hout s.arg (nexttoken s.arg).2 below rfl rfl
    rw [hstep] at h
    cases out with
    | error f => cases h
    | ok t =>
      cases h
      simp only [Procrun.Grounded, Tokenturn.over, stacked_bottom]
      cases below with
      | nil => exact hst
      | cons s' below => exact hst

/-! ## Arguments -/

/-- How a run goes on with another argument. -/
def resume (rest : S8) : Except Fail Procend → Except Fail Procend
  | .error f => .error f
  | .ok e => (procMachine mapfile proc).run ⟨⟨rest, e.last, 0, ⟨true, true⟩, e.op, e.pending⟩, [], e.pkgs⟩

theorem run_extend (rest : S8) {st : Procrun} (hst : st.Grounded) :
    (procMachine mapfile proc).run (st.extend rest) =
      resume mapfile proc rest ((procMachine mapfile proc).run st) := by
  refine (procMachine mapfile proc).run_then (procMachine mapfile proc) (I := Procrun.Grounded) (Procrun.extend rest)
    (resume mapfile proc rest) (fun st st' => procStep_grounded mapfile proc) ?_ ?_ st hst
  · intro st st' _ hgo
    have hend : ¬ st.AtEnd := fun hend => by
      rw [show (procMachine mapfile proc).step st = _ from procStep_end mapfile proc hend] at hgo
      cases hgo
    refine (procStep_extend mapfile proc hend rest).1.trans ?_
    rw [show procStep mapfile proc st = .go st' from hgo]
    rfl
  · intro st r hground hstop
    by_cases hend : st.AtEnd
    · rw [show (procMachine mapfile proc).step st = _ from procStep_end mapfile proc hend] at hstop
      cases hstop
      obtain ⟨⟨arg, last, depth, flags, op, pending⟩, below, pkgs⟩ := st
      obtain ⟨rfl, htok⟩ := hend
      obtain ⟨rfl, rfl⟩ := hground
      -- the blank and what is in front of it are skipped
      refine (procMachine mapfile proc).run_congr ?_
      show procStep mapfile proc _ = procStep mapfile proc _
      have hnext : nexttoken (arg ++ 0x20 :: rest) = nexttoken rest := (nexttoken_append arg rest).trans (if_pos htok)
      simp only [procStep, Procrun.extend, extendframes, Procstate.extend, hnext]
      rfl
    · obtain ⟨hstep, hok⟩ := procStep_extend mapfile proc hend rest
      rw [show procStep mapfile proc st = .stop r from hstop] at hstep
      cases r with
      | ok e => exact absurd hstop (hok e)
      | error f => exact (procMachine mapfile proc).run_stop hstep

/-- A blank between two texts is as good as the end of an argument. -/
theorem process_append (a b : S8) :
    process mapfile proc (a ++ 0x20 :: b) = (process mapfile proc a).bind fun proc' => process mapfile proc' b := by
  have hground : Procrun.Grounded ⟨proc.frame a, [], proc.pkgs⟩ := ⟨rfl, rfl⟩
  have hrun := run_extend mapfile proc b hground
  have hframe : Procrun.extend b ⟨proc.frame a, [], proc.pkgs⟩ = ⟨proc.frame (a ++ 0x20 :: b), [], proc.pkgs⟩ := rfl
  rw [hframe] at hrun
  rw [process, hrun, process]
  cases (procMachine mapfile proc).run ⟨proc.frame a, [], proc.pkgs⟩ with
  | error f => rfl
  | ok e => rfl

theorem process_nil : process mapfile proc [] = .ok proc := by
  rw [process, (procMachine mapfile proc).run_stop (procStep_end mapfile proc ⟨rfl, rfl⟩)]
  rfl

/-- For all package sets, processors and arguments: processing them one after another ends
    as processing their texts with single blanks between them does. -/
theorem processargs_joined (mapfile : S8 → Filemap) (proc : Processor) (args : List S8) :
    processargs mapfile proc args = process mapfile proc ([0x20].intercalate args) := by
  induction args generalizing proc with
  | nil => exact (process_nil mapfile proc).symm
  | cons arg args ih =>
    rw [processargs, List.foldlM_cons]
    cases args with
    | nil =>
      rw [List.intercalate_singleton]
      exact bind_pure (process mapfile proc arg)
    | cons arg' args =>
      rw [List.intercalate_cons_cons, List.append_assoc, List.singleton_append, process_append]
      exact congrArg (Except.bind (process mapfile proc arg)) (funext ih)

end GnuWindows.PkgConfig
