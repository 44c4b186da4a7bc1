/-
  GnuWindows.VcFilt.Failures — symbols that cannot be decoded (`undecorate`, `run`).

  `UnDecorateSymbolName` writes nothing when it fails, and returns 0. `undecorate` takes
  this for the output: the symbol is gone, and a repeat of it gets the same from the cache.
  A run that is no symbol is passed through.

  Proved: `symbols_kept_iff`, no symbol is lost exactly when each of them can be decoded.
-/
import GnuWindows.VcFilt.Filter

namespace GnuWindows.VcFilt

open GnuWindows.PkgConfig (S8)

/-! ## The symbols of a stream -/

/-- A run that is decoded. -/
abbrev Symbol (g : S8) : Prop := g.head? = some 0x3f ∧ 0x40 ∈ g ∧ g.length < SYMBOL_MAX

def symbols (s : S8) : List S8 := (runs s).filter fun g => Symbol g

/-- What `undecorate` is called with, in order, each with its terminating zero. -/
def handed (syms chunks : List S8) : List S8 :=
  if syms ≠ [] then syms else (symbols (stream chunks)).map (· ++ [0])

/-- The runs, with the symbols among them replaced one after the other. -/
def replaced : List S8 → List S8 → S8
  | [], _ => []
  | g :: gs, texts => if Symbol g then texts.headD [] ++ replaced gs texts.tail else g ++ replaced gs texts

/-- What is written when these texts stand for the symbols. -/
def output (syms chunks texts : List S8) : S8 :=
  if syms ≠ [] then texts.flatMap (· ++ [0x0a]) else replaced (runs (stream chunks)) texts

/-! ## The calls of `undecorate` -/

/-- A symbol, and what is written in its place. -/
structure Call where
  sym : S8
  text : S8

variable (undname : S8 → UInt32 → S8) {fd : Handle}

/-- Something is written for the symbol, and when it cannot be decoded the symbol itself. -/
def Call.Kept (flags : UInt32) (call : Call) : Prop :=
  call.text ≠ [] ∧ (undname call.sym flags = [] → call.text = call.sym.dropLast)

/-- The call that decodes what is held. -/
def callheld (f : Filter fd) : Call := ⟨f.sym ++ [0], (undecorate undname f.cache (f.sym ++ [0])).1⟩

/-- The byte ends a symbol. -/
def decodes (f : Filter fd) (c : UInt8) : Bool :=
  !(f.sym_start && c == 0x3f) && f.sym.length ≠ 0 && !ident c && f.sym_at

/-- The calls from a state of the filter on, while these bytes are read and at the end. -/
def callsfrom (f : Filter fd) : S8 → List Call
  | [] => if f.sym_at then [callheld undname f] else []
  | c :: s => (if decodes f c then [callheld undname f] else []) ++ callsfrom (filterbyte undname f c) s

/-- The calls of `run`. -/
def calls (fd : Handle) (flags : UInt32) (syms : List S8) (perm : Arena) (chunks : List S8) : List Call :=
  let cache := newcache flags perm
  if syms ≠ [] then List.zipWith Call.mk syms (undecorates undname cache syms).1
  else callsfrom undname (⟨[], false, true, cache, newbufout fd⟩ : Filter fd) (stream chunks)

variable {undname} {flags : UInt32} {c : Callcache} {out : Bufout fd}

/-- Where nothing ends a symbol, the calls come later. -/
theorem callsfrom_append {f : Filter fd} {s t : S8}
    (h : ∀ s' x, s' ++ [x] <+: s → decodes (s'.foldl (filterbyte undname) f) x = false) :
    callsfrom undname f (s ++ t) = callsfrom undname (s.foldl (filterbyte undname) f) t := by
  induction s generalizing f with
  | nil => rfl
  | cons x s ih =>
    have hx : decodes f x = false := h [] x ⟨s, rfl⟩
    rw [List.cons_append, callsfrom, hx, if_neg Bool.false_ne_true, List.nil_append, List.foldl_cons]
    refine ih fun s' y hy => ?_
    exact h (x :: s') y ((List.cons_prefix_cons).mpr ⟨rfl, hy⟩)

theorem decodes_empty {sym_at sym_start : Bool} (x : UInt8) :
    decodes (⟨[], sym_at, sym_start, c, out⟩ : Filter fd) x = false := by
  simp [decodes]

theorem decodes_ident (f : Filter fd) {x : UInt8} (hx : ident x = true) : decodes f x = false := by
  simp [decodes, hx]

/-- Other bytes end no symbol when nothing is held. -/
theorem callsfrom_others {g : S8} (hg : ∀ x ∈ g, ident x = false) (t : S8) :
    callsfrom undname (⟨[], false, true, c, out⟩ : Filter fd) (g ++ t) =
      callsfrom undname (⟨[], false, true, c, writes8 out g⟩ : Filter fd) t := by
  rw [callsfrom_append fun s' x hx => ?_, foldl_others hg]
  rw [foldl_others fun y hy => hg y (hx.subset (List.mem_append_left _ hy))]
  exact decodes_empty x

/-- A run calls nothing until it ends. -/
theorem callsfrom_run {g : S8} (hne : g ≠ []) (hg : ∀ x ∈ g, ident x = true) (t : S8) :
    callsfrom undname (⟨[], false, true, c, out⟩ : Filter fd) (g ++ t) = callsfrom undname (inrun c out g) t := by
  rw [callsfrom_append fun s' x hx => ?_, foldl_run hne hg]
  exact decodes_ident _ (hg x (hx.subset (List.mem_append_right _ (List.mem_singleton_self x))))

variable (c out) in
/-- Where a run ends it is decoded when it is a symbol. -/
theorem inrun_ends (g : S8) {x : UInt8} (hx : ident x = false) :
    decodes (inrun c out g) x = decide (Symbol g) ∧ (inrun c out g).sym_at = decide (Symbol g) := by
  by_cases hheld : g.head? = some 0x3f ∧ g.length < SYMBOL_MAX
  · have hne : g ≠ [] := by
      rintro rfl
      cases hheld.1
    have hat : g.contains 0x40 = decide (Symbol g) := by
      rw [Bool.eq_iff_iff, List.contains_iff_mem, decide_eq_true_iff]
      exact ⟨fun h => ⟨hheld.1, h, hheld.2⟩, fun h => h.2.1⟩
    rw [inrun_held hheld]
    refine ⟨?_, hat⟩
    rw [← hat]
    simp [decodes, hx, hne]
  · have hnot : decide (Symbol g) = false := decide_eq_false fun h => hheld ⟨h.1, h.2.2⟩
    rw [inrun_passed hheld, hnot]
    exact ⟨decodes_empty x, rfl⟩

theorem symbols_append {g rest : S8} {p : Bool} (hne : g ≠ []) (hg : ∀ x ∈ g, ident x = p)
    (hrest : ∀ x ∈ rest.head?, ident x ≠ p) :
    symbols (g ++ rest) = (if Symbol g then [g] else []) ++ symbols rest := by
  rw [symbols, runs_append hne hg hrest, List.filter_cons]
  by_cases h : Symbol g
  · rw [if_pos (decide_eq_true h), if_pos h]
    rfl
  · rw [if_neg fun hg => h (of_decide_eq_true hg), if_neg h]
    rfl

/-- What is written for a symbol when the function is called for it. -/
def direct (undname : S8 → UInt32 → S8) (flags : UInt32) (g : S8) : Call := ⟨g ++ [0], undname (g ++ [0]) flags⟩

/-- The call at the end of a run. -/
theorem callheld_inrun (hc : c.Sound undname) (out : Bufout fd) (g : S8) :
    (if decide (Symbol g) = true then [callheld undname (inrun c out g)] else []) =
      (if Symbol g then [g] else []).map (direct undname c.flags) := by
  by_cases h : Symbol g
  · obtain ⟨hr, -⟩ := undecorate_direct hc (g ++ [0])
    rw [if_pos (decide_eq_true h), if_pos h, inrun_held ⟨h.1, h.2.2⟩, callheld, hr]
    rfl
  · rw [if_neg fun hg => h (of_decide_eq_true hg), if_neg h]
    rfl

/-- From between two runs, each symbol of the rest is handed over once, and what comes of
    it is what the function gives. -/
theorem calls_stream (hc : c.Sound undname) (out : Bufout fd) (s : S8) :
    callsfrom undname ⟨[], false, true, c, out⟩ s = (symbols s).map (direct undname c.flags) := by
  induction hn : s.length using Nat.strongRecOn generalizing s c out with
  | ind n ih =>
    subst hn
    by_cases hs : s = []
    · subst hs
      rfl
    obtain ⟨p, g, rest, rfl, hne, hg, hrest⟩ := exists_run hs
    have hlen := List.length_pos_iff.mpr hne
    rw [symbols_append hne hg hrest, List.map_append]
    cases p with
    | false =>
      have hnot : ¬ Symbol g := by
        rintro ⟨hhead, -⟩
        obtain ⟨g', rfl⟩ := List.head?_eq_some_iff.mp hhead
        exact absurd (hg 0x3f List.mem_cons_self) (by decide)
      rw [callsfrom_others hg, if_neg hnot]
      exact ih rest.length (by rw [List.length_append]; omega) hc _ rest rfl
    | true =>
      rw [callsfrom_run hne hg, ← callheld_inrun hc out g]
      cases rest with
      | nil =>
        obtain ⟨-, hat⟩ := inrun_ends c out g (x := 0) (by decide)
        rw [callsfrom, hat]
        exact (List.append_nil _).symm
      | cons x rest =>
        have hx : ident x = false := Bool.not_eq_true _ ▸ hrest x rfl
        obtain ⟨c', hsound, hflags, -, hnext⟩ := run_ends out hc g
        obtain ⟨hdecodes, -⟩ := inrun_ends c out g hx
        -- after the byte that ends the run nothing is held, as if it had been met without one
        have hlater := ih (x :: rest).length (by rw [List.length_append]; omega) hsound
          (writes8 out (decoded undname c.flags g)) (x :: rest) rfl
        rw [callsfrom, decodes_empty, if_neg Bool.false_ne_true, List.nil_append, filterbyte_other hx, hflags,
          ← hnext x hx] at hlater
        rw [callsfrom, hdecodes, hlater]

/-! ## What is written for them -/

theorem replaced_direct (undname : S8 → UInt32 → S8) (flags : UInt32) (gs : List S8) :
    replaced gs (((gs.filter fun g => Symbol g).map (direct undname flags)).map Call.text) =
      gs.flatMap (decoded undname flags) := by
  induction gs with
  | nil => rfl
  | cons g gs ih =>
    rw [List.filter_cons, List.flatMap_cons, ← ih, replaced]
    by_cases h : Symbol g
    · have hdecoded : decoded undname flags g = undname (g ++ [0]) flags := if_pos h
      rw [if_pos (decide_eq_true h), if_pos h, hdecoded]
      rfl
    · have hdecoded : decoded undname flags g = g := if_neg h
      rw [if_neg fun hg => h (of_decide_eq_true hg), if_neg h, hdecoded]

theorem decodeargs_eq (c : Callcache) (out : Bufout fd) (syms : List S8) :
    decodeargs undname c out syms = writes8 out ((undecorates undname c syms).1.flatMap (· ++ [0x0a])) := by
  induction syms generalizing c out with
  | nil => exact (writes8_nil out).symm
  | cons sym syms ih => rw [decodeargs, ih, undecorates, List.flatMap_cons, writeu8_writes8, writes8_writes8]

variable (undname)

/-- Every symbol is handed over once, in order, and gets what the function gives. -/
theorem calls_eq (fd : Handle) (flags : UInt32) (syms : List S8) (perm : Arena) (chunks : List S8) :
    calls undname fd flags syms perm chunks = (handed syms chunks).map fun sym => ⟨sym, undname sym flags⟩ := by
  have hempty : (newcache flags perm).Sound undname := ⟨sound_leaf⟩
  unfold calls handed
  by_cases hsyms : syms = []
  · rw [if_neg (not_not_intro hsyms), if_neg (not_not_intro hsyms), calls_stream hempty, List.map_map]
    rfl
  · obtain ⟨houts, -⟩ := undecorates_sound hempty syms
    rw [if_pos hsyms, if_pos hsyms, houts, List.zipWith_map_right, List.zipWith_self]
    rfl

/-- What has been written when the calls gave these texts. -/
theorem run_output (fd : Handle) (flags : UInt32) (syms : List S8) (perm : Arena) (chunks : List S8) :
    run undname fd flags syms perm chunks = flush (writes8 (newbufout fd)
      (output syms chunks ((calls undname fd flags syms perm chunks).map Call.text))) := by
  have hempty : (newcache flags perm).Sound undname := ⟨sound_leaf⟩
  rw [calls_eq, List.map_map]
  unfold run output handed
  by_cases hsyms : syms = []
  · simp only [if_neg (not_not_intro hsyms)]
    rw [filterloop_eq, List.map_map, symbols]
    refine congrArg flush ((filter_stream hempty (stream chunks)).trans ?_)
    rw [filtered, ← replaced_direct, List.map_map]
    rfl
  · obtain ⟨houts, -⟩ := undecorates_sound hempty syms
    simp only [if_pos hsyms]
    rw [decodeargs_eq, houts]
    rfl

/-- What is written for the symbols of the command line or of the stream is what the calls
    gave. None of them is lost, at its first call or at a repeat, exactly when the function
    fails for none. -/
theorem symbols_kept_iff (fd : Handle) (flags : UInt32) (syms : List S8) (perm : Arena) (chunks : List S8) :
    run undname fd flags syms perm chunks = flush (writes8 (newbufout fd)
        (output syms chunks ((calls undname fd flags syms perm chunks).map Call.text))) ∧
      (calls undname fd flags syms perm chunks).map Call.sym = handed syms chunks ∧
      ((∀ call ∈ calls undname fd flags syms perm chunks, call.Kept undname flags) ↔
        ∀ sym ∈ handed syms chunks, undname sym flags ≠ []) := by
  refine ⟨run_output undname fd flags syms perm chunks, ?_, ?_⟩
  · rw [calls_eq, List.map_map]
    exact List.map_id _
  · rw [calls_eq, List.forall_mem_map]
    refine forall₂_congr fun sym _ => ?_
    constructor
    · rintro ⟨hsome, -⟩
      exact hsome
    · intro hsome
      exact ⟨hsome, fun hfail => absurd hfail hsome⟩

/-- A file, and a stream with a symbol and its repeat. -/
def plainfile : Handle := ⟨false, fun _ _ => true, fun _ _ => true⟩

def repeated : List S8 := [[0x3f, 0x40, 0x20, 0x3f, 0x40, 0x20]]

/-- When the function fails for the symbol, both are lost: only the spaces are written. -/
theorem failed_symbols_lost :
    let made := calls (fun _ _ => []) plainfile 0 [] ⟨0, 1 <<< 20, by decide⟩ repeated
    made.map Call.sym = [[0x3f, 0x40, 0], [0x3f, 0x40, 0]] ∧ (∀ call ∈ made, ¬ call.Kept (fun _ _ => []) 0) ∧
      (run (fun _ _ => []) plainfile 0 [] ⟨0, 1 <<< 20, by decide⟩ repeated).dev.files = [[0x20, 0x20]] := by
  refine ⟨?_, fun call hcall hkept => ?_, ?_⟩
  · rw [calls_eq]
    decide +kernel
  · rw [calls_eq] at hcall
    obtain ⟨sym, -, rfl⟩ := List.mem_map.mp hcall
    exact hkept.1 rfl
  · rw [run_output, calls_eq]
    decide +kernel

end GnuWindows.VcFilt
