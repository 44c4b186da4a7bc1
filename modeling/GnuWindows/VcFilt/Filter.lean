/-
  GnuWindows.VcFilt.Filter — decorated names in a stream (`readu8`, `ident`, `run`).

  The filter goes byte by byte. It holds what may become a symbol, a run of identifier
  bytes that starts with `?`, until the run ends or is too long. What is held, whether it
  has an `@`, and whether the next byte starts a run is all it knows of the stream.

  Proved: `run_filters`, what is written is the stream cut into maximal runs with the
  symbols among them replaced, however it is read.
-/
import GnuWindows.VcFilt.Cache
import GnuWindows.VcFilt.Output
import Mathlib.Data.List.SplitBy
import Mathlib.Data.List.TakeWhile

namespace GnuWindows.VcFilt

open GnuWindows.Lib.Blocks (Buffer)
open GnuWindows.PkgConfig (S8)

/-! ## Input -/

/-- What is left of the buffer, and what `ReadFile` has still to deliver, call by call. -/
structure Bufin where
  buf : S8
  chunks : List S8
  eof : Bool

def newbufin (chunks : List S8) : Bufin := ⟨[], chunks, false⟩

def readu8 (b : Bufin) : UInt8 × Bufin :=
  if b.eof then (0, b)
  else
    match b.buf with
    | c :: buf => (c, { b with buf })
    | [] =>
      match b.chunks with
      | (c :: buf) :: chunks => (c, { b with buf, chunks })
      | [] :: chunks => (0, { b with chunks, eof := true })
      | [] => (0, { b with eof := true })

/-- The stream ends where nothing is delivered. -/
def stream (chunks : List S8) : S8 := (chunks.takeWhile (· ≠ [])).flatten

/-- What has still to be read. -/
def Bufin.rest (b : Bufin) : S8 := if b.eof then [] else b.buf ++ stream b.chunks

/-- A byte is the first of the rest; at the end it is none. -/
theorem readu8_cases (b : Bufin) :
    ((readu8 b).2.eof = true ∧ b.rest = []) ∨
      ((readu8 b).2.eof = false ∧ b.rest = (readu8 b).1 :: (readu8 b).2.rest) := by
  obtain ⟨buf, chunks, eof⟩ := b
  cases eof with
  | true => exact Or.inl ⟨rfl, rfl⟩
  | false =>
    rcases buf with _ | ⟨c, buf⟩
    · rcases chunks with _ | ⟨_ | ⟨c, buf⟩, chunks⟩
      · exact Or.inl ⟨rfl, rfl⟩
      · exact Or.inl ⟨rfl, rfl⟩
      · exact Or.inr ⟨rfl, rfl⟩
    · exact Or.inr ⟨rfl, rfl⟩

/-! ## The filter -/

def identtable : List UInt32 :=
  [0x00000000, 0x83ff0010, 0x87ffffff, 0x07fffffe, 0xffffffff, 0xffffffff, 0xffffffff, 0xffffffff]

def ident (c : UInt8) : Bool := identtable.getD (c >>> 5).toNat 0 &&& 1 <<< (c &&& 31).toUInt32 != 0

/-- `$0-9?@A-Z_a-z`, and what is not ASCII. -/
def identbyte (c : UInt8) : Bool :=
  c == 0x24 || (0x30 ≤ c && c ≤ 0x39) || (0x3f ≤ c && c ≤ 0x5a) || c == 0x5f || (0x61 ≤ c && c ≤ 0x7a) || 0x80 ≤ c

theorem ident_eq (c : UInt8) : ident c = identbyte c := by
  have hall : ∀ n : Fin 256, ident (UInt8.ofNat n) = identbyte (UInt8.ofNat n) := by decide +kernel
  simpa using hall ⟨c.toNat, c.toNat_lt⟩

variable (undname : S8 → UInt32 → S8) {fd : Handle}

structure Filter (fd : Handle) where
  sym : S8
  /-- The symbol contains an `@`. -/
  sym_at : Bool
  /-- The next byte starts an identifier. -/
  sym_start : Bool
  cache : Callcache
  out : Bufout fd

/-- The symbol with its terminating zero is decoded. -/
def decodesym (f : Filter fd) : Filter fd :=
  let r := undecorate undname f.cache (f.sym ++ [0])
  { f with cache := r.2, out := writes8 f.out r.1 }

def filterbyte (f : Filter fd) (c : UInt8) : Filter fd :=
  let f :=
    if f.sym_start && c == 0x3f then { f with sym := f.sym ++ [c] }
    else if f.sym.length ≠ 0 then
      if ident c then
        let sym := f.sym ++ [c]
        if sym.length = SYMBOL_MAX then { f with out := writes8 f.out sym, sym := [], sym_at := false }
        else { f with sym, sym_at := f.sym_at || c == 0x40 }
      else if f.sym_at then
        let f := decodesym undname f
        { f with out := writeu8 f.out c, sym := [], sym_at := false }
      else { f with out := writeu8 (writes8 f.out f.sym) c, sym := [], sym_at := false }
    else { f with out := writeu8 f.out c }
  { f with sym_start := !ident c }

/-- The loop over the bytes of standard input. -/
def filterloop (b : Bufin) (f : Filter fd) : Filter fd :=
  let r := readu8 b
  if _h : r.2.eof then f else filterloop r.2 (filterbyte undname f r.1)
termination_by b.rest.length
decreasing_by
  rcases readu8_cases b with ⟨heof, -⟩ | ⟨-, hrest⟩
  · exact absurd heof _h
  · rw [hrest]
    exact Nat.lt_succ_self _

/-- What is still held at the end. -/
def finish (f : Filter fd) : Bufout fd :=
  if f.sym_at then (decodesym undname f).out else writes8 f.out f.sym

/-- The symbols of the command line, each with its terminating zero. -/
def decodeargs (c : Callcache) (out : Bufout fd) : List S8 → Bufout fd
  | [] => out
  | sym :: syms =>
    let r := undecorate undname c sym
    decodeargs r.2 (writeu8 (writes8 out r.1) 0x0a) syms

/-- From the options on: `flags` and `syms` come from the command line, `perm` is what the
    buffers leave of the arena. -/
def run (fd : Handle) (flags : UInt32) (syms : List S8) (perm : Arena) (chunks : List S8) : Bufout fd :=
  let cache := newcache flags perm
  if syms ≠ [] then flush (decodeargs undname cache (newbufout fd) syms)
  else flush (finish undname (filterloop undname (newbufin chunks) ⟨[], false, true, cache, newbufout fd⟩))

/-! ## What is meant -/

/-- A run with its symbol replaced. -/
def decoded (flags : UInt32) (run : S8) : S8 :=
  if run.head? = some 0x3f ∧ 0x40 ∈ run ∧ run.length < SYMBOL_MAX then undname (run ++ [0]) flags else run

/-- The stream cut into maximal runs of identifier bytes and of other bytes. -/
def runs (s : S8) : List S8 := s.splitBy fun a b => ident a == ident b

def filtered (flags : UInt32) (s : S8) : S8 := (runs s).flatMap (decoded undname flags)

/-! ## The loop over the stream -/

section

variable {undname} {flags : UInt32} {c : Callcache} {out : Bufout fd}

theorem writes8_writes8 (b : Bufout fd) (s t : S8) : writes8 (writes8 b s) t = writes8 b (s ++ t) :=
  (Buffer.put_append b s t).symm

theorem writes8_nil (b : Bufout fd) : writes8 b [] = b := Buffer.put_nil b

theorem writeu8_writes8 (b : Bufout fd) (s : S8) (x : UInt8) : writeu8 (writes8 b s) x = writes8 b (s ++ [x]) :=
  writes8_writes8 b s [x]

theorem filterloop_eq (b : Bufin) (f : Filter fd) : filterloop undname b f = b.rest.foldl (filterbyte undname) f := by
  induction b, f using filterloop.induct undname with
  | case1 b f r h =>
    rw [filterloop, dif_pos h]
    rcases readu8_cases b with ⟨-, hrest⟩ | ⟨heof, -⟩
    · rw [hrest]
      rfl
    · rw [show (readu8 b).2.eof = true from h] at heof
      cases heof
  | case2 b f r h ih =>
    rw [filterloop, dif_neg h]
    rcases readu8_cases b with ⟨heof, -⟩ | ⟨-, hrest⟩
    · exact absurd heof h
    · rw [hrest, List.foldl_cons]
      exact ih

/-! ## A run of other bytes -/

theorem filterbyte_other {x : UInt8} (hx : ident x = false) :
    filterbyte undname ⟨[], false, true, c, out⟩ x = ⟨[], false, true, c, writeu8 out x⟩ := by
  have hne : (x == 0x3f) = false := by
    cases he : x == 0x3f with
    | false => rfl
    | true => rw [eq_of_beq he] at hx; exact absurd hx (by decide)
  simp [filterbyte, hx, hne]

theorem foldl_others {g : S8} (hg : ∀ x ∈ g, ident x = false) :
    g.foldl (filterbyte undname) ⟨[], false, true, c, out⟩ = ⟨[], false, true, c, writes8 out g⟩ := by
  induction g generalizing out with
  | nil => rw [writes8_nil]; rfl
  | cons x g ih =>
    rw [List.forall_mem_cons] at hg
    rw [List.foldl_cons, filterbyte_other hg.1, ih hg.2]
    exact congrArg _ (writes8_writes8 out [x] g)

/-! ## A run of identifier bytes -/

/-- What is held of a run so far. -/
def held (g : S8) : S8 := if g.head? = some 0x3f ∧ g.length < SYMBOL_MAX then g else []

/-- The filter in a run: it holds what it has read of it, or has passed it through. -/
def inrun (c : Callcache) (out : Bufout fd) (g : S8) : Filter fd :=
  ⟨held g, (held g).contains 0x40, false, c, if held g = [] then writes8 out g else out⟩

theorem inrun_held {g : S8} (h : g.head? = some 0x3f ∧ g.length < SYMBOL_MAX) :
    inrun c out g = ⟨g, g.contains 0x40, false, c, out⟩ := by
  have hne : g ≠ [] := by
    rintro rfl
    cases h.1
  rw [inrun, held, if_pos h, if_neg hne]

theorem inrun_passed {g : S8} (h : ¬ (g.head? = some 0x3f ∧ g.length < SYMBOL_MAX)) :
    inrun c out g = ⟨[], false, false, c, writes8 out g⟩ := by
  rw [inrun, held, if_neg h, if_pos rfl]
  rfl

theorem filterbyte_first {x : UInt8} (hx : ident x = true) :
    filterbyte undname ⟨[], false, true, c, out⟩ x = inrun c out [x] := by
  by_cases hq : x = 0x3f
  · subst hq
    rw [inrun_held ⟨rfl, by decide⟩]
    simp [filterbyte, hx]
  · have hpassed : ¬ ([x].head? = some 0x3f ∧ [x].length < SYMBOL_MAX) := fun h => hq (Option.some.inj h.1)
    rw [inrun_passed hpassed]
    simp [filterbyte, hx, hq, writeu8]

/-- One more byte of the run is held, or all that is held is given up, or it is passed
    through. -/
theorem filterbyte_inrun {g : S8} (hne : g ≠ []) {x : UInt8} (hx : ident x = true) :
    filterbyte undname (inrun c out g) x = inrun c out (g ++ [x]) := by
  have hhead : (g ++ [x]).head? = g.head? := List.head?_append_of_ne_nil g hne
  have hlen : (g ++ [x]).length = g.length + 1 := List.length_append
  by_cases hheld : g.head? = some 0x3f ∧ g.length < SYMBOL_MAX
  · rw [inrun_held hheld]
    by_cases hfull : g.length + 1 = SYMBOL_MAX
    · rw [inrun_passed fun h => by omega]
      simp [filterbyte, hx, hne, hfull]
    · have hat : (g.contains 0x40 || x == 0x40) = (g ++ [x]).contains 0x40 := by
        rw [List.contains_append, List.contains_cons, List.contains_nil, Bool.or_false, Bool.beq_comm]
      rw [inrun_held ⟨hhead.trans hheld.1, by omega⟩, ← hat]
      simp [filterbyte, hx, hne, hfull]
  · rw [inrun_passed hheld, inrun_passed fun h => hheld ⟨hhead ▸ h.1, by omega⟩]
    simp [filterbyte, hx, writeu8_writes8]

theorem foldl_run {g : S8} (hne : g ≠ []) (hg : ∀ x ∈ g, ident x = true) :
    g.foldl (filterbyte undname) ⟨[], false, true, c, out⟩ = inrun c out g := by
  induction g using List.reverseRecOn with
  | nil => exact absurd rfl hne
  | append_singleton g x ih =>
    rw [List.forall_mem_append, List.forall_mem_singleton] at hg
    rw [List.foldl_append]
    by_cases hnil : g = []
    · subst hnil
      exact filterbyte_first hg.2
    · rw [ih hnil hg.1]
      exact filterbyte_inrun hnil hg.2

/-- Where a run ends its symbol is replaced, as if it had been written before. -/
theorem run_ends (out : Bufout fd) (hc : c.Sound undname) (g : S8) : ∃ c' : Callcache, c'.Sound undname ∧
    c'.flags = c.flags ∧ finish undname (inrun c out g) = writes8 out (decoded undname c.flags g) ∧
      ∀ x, ident x = false → filterbyte undname (inrun c out g) x =
        ⟨[], false, true, c', writeu8 (writes8 out (decoded undname c.flags g)) x⟩ := by
  by_cases hheld : g.head? = some 0x3f ∧ g.length < SYMBOL_MAX
  · have hne : g ≠ [] := by
      rintro rfl
      cases hheld.1
    rw [inrun_held hheld]
    by_cases hat : 0x40 ∈ g
    · obtain ⟨hr, hsound, hflags, -⟩ := undecorate_direct hc (g ++ [0])
      have hcontains : g.contains 0x40 = true := List.contains_iff_mem.mpr hat
      have hdecoded : decoded undname c.flags g = undname (g ++ [0]) c.flags := if_pos ⟨hheld.1, hat, hheld.2⟩
      refine ⟨_, hsound, hflags, ?_, fun x hx => ?_⟩
      · rw [finish, if_pos hcontains, hdecoded, ← hr]
        rfl
      · rw [hdecoded, ← hr]
        simp [filterbyte, decodesym, hx, hne, hat]
    · have hcontains : g.contains 0x40 = false := by
        rw [← Bool.not_eq_true, List.contains_iff_mem]
        exact hat
      have hdecoded : decoded undname c.flags g = g := if_neg fun h => hat h.2.1
      refine ⟨c, hc, rfl, ?_, fun x hx => ?_⟩
      · rw [finish, hcontains, hdecoded]
        rfl
      · rw [hdecoded]
        simp [filterbyte, hx, hne, hat]
  · have hdecoded : decoded undname c.flags g = g := if_neg fun h => hheld ⟨h.1, h.2.2⟩
    rw [inrun_passed hheld, hdecoded]
    refine ⟨c, hc, rfl, writes8_nil _, fun x hx => ?_⟩
    simp [filterbyte, hx]

/-! ## The whole stream -/

/-- The first run, and the runs of what follows it. -/
theorem runs_append {g rest : S8} {p : Bool} (hne : g ≠ []) (hg : ∀ x ∈ g, ident x = p)
    (hrest : ∀ x ∈ rest.head?, ident x ≠ p) : runs (g ++ rest) = g :: runs rest := by
  have hsame : g.IsChain fun a b => (ident a == ident b) = true := by
    refine List.Pairwise.isChain (List.pairwise_of_forall_mem_list fun a ha b hb => ?_)
    rw [hg a ha, hg b hb]
    exact beq_self_eq_true p
  have hcut : ∀ x ∈ g.getLast?, ∀ y ∈ rest.head?, (ident x == ident y) = false := by
    intro x hx y hy
    rw [hg x (List.mem_of_mem_getLast? hx), beq_eq_false_iff_ne]
    exact (hrest y hy).symm
  rw [runs, List.splitBy_append hcut, List.splitBy_of_isChain hne hsame]
  rfl

/-- A stream that is not empty begins with a maximal run. -/
theorem exists_run {s : S8} (hs : s ≠ []) : ∃ p g rest, s = g ++ rest ∧ g ≠ [] ∧ (∀ x ∈ g, ident x = p) ∧
    ∀ x ∈ rest.head?, ident x ≠ p := by
  obtain ⟨c, s, rfl⟩ := List.exists_cons_of_ne_nil hs
  refine ⟨ident c, (c :: s).takeWhile (ident · == ident c), (c :: s).dropWhile (ident · == ident c),
    List.takeWhile_append_dropWhile.symm, ?_, fun x hx => ?_, ?_⟩
  · rw [List.takeWhile_cons, if_pos (beq_self_eq_true _)]
    exact List.cons_ne_nil _ _
  · exact eq_of_beq (List.mem_takeWhile_imp (p := fun x => ident x == ident c) hx)
  · intro x hx
    have hnot := List.head?_dropWhile_not (ident · == ident c) (c :: s)
    rw [Option.mem_def.mp hx] at hnot
    exact beq_eq_false_iff_ne.mp hnot

theorem filtered_append {g rest : S8} {p : Bool} (hne : g ≠ []) (hg : ∀ x ∈ g, ident x = p)
    (hrest : ∀ x ∈ rest.head?, ident x ≠ p) :
    filtered undname flags (g ++ rest) = decoded undname flags g ++ filtered undname flags rest := by
  rw [filtered, runs_append hne hg hrest, List.flatMap_cons, filtered]

/-- Other bytes are no symbol. -/
theorem decoded_others {g : S8} (hg : ∀ x ∈ g, ident x = false) : decoded undname flags g = g := by
  refine if_neg fun h => ?_
  obtain ⟨g', rfl⟩ := List.head?_eq_some_iff.mp h.1
  exact absurd (hg 0x3f List.mem_cons_self) (by decide)

/-- From between two runs, the filter writes what is meant of the rest. -/
theorem filter_stream (hc : c.Sound undname) (s : S8) :
    finish undname (s.foldl (filterbyte undname) ⟨[], false, true, c, out⟩) =
      writes8 out (filtered undname c.flags s) := by
  induction hn : s.length using Nat.strongRecOn generalizing s c out with
  | ind n ih =>
    subst hn
    by_cases hs : s = []
    · subst hs
      exact (writes8_nil _).trans (writes8_nil _).symm
    obtain ⟨p, g, rest, rfl, hne, hg, hrest⟩ := exists_run hs
    have hlen := List.length_pos_iff.mpr hne
    rw [filtered_append hne hg hrest, List.foldl_append, ← writes8_writes8]
    cases p with
    | false =>
      rw [foldl_others hg, decoded_others hg]
      exact ih rest.length (by rw [List.length_append]; omega) hc rest rfl
    | true =>
      obtain ⟨c', hsound, hflags, hend, hnext⟩ := run_ends out hc g
      rw [foldl_run hne hg]
      cases rest with
      | nil => exact hend.trans (writes8_nil _).symm
      | cons x rest =>
        have hx : ident x = false := Bool.not_eq_true _ ▸ hrest x rfl
        -- the byte after the run is met as if nothing had been held
        have hbetween : filterbyte undname (inrun c out g) x =
            filterbyte undname ⟨[], false, true, c', writes8 out (decoded undname c.flags g)⟩ x := by
          rw [hnext x hx, filterbyte_other hx]
        rw [List.foldl_cons, hbetween, ← List.foldl_cons, ← hflags]
        exact ih (x :: rest).length (by rw [List.length_append]; omega) hsound (x :: rest) rfl

end

/-- The whole run writes the stream with its symbols replaced. -/
theorem run_stream (fd : Handle) (flags : UInt32) (perm : Arena) (chunks : List S8) :
    run undname fd flags [] perm chunks =
      flush (writes8 (newbufout fd) (filtered undname flags (stream chunks))) := by
  have hempty : (newcache flags perm).Sound undname := ⟨sound_leaf⟩
  rw [run, if_neg (by simp), filterloop_eq]
  exact congrArg flush (filter_stream hempty (stream chunks))

/-- For every stream, however it is delivered: without symbols on the command line, the
    output is what it is after writing the stream with its symbols replaced. So to a file,
    without an error, exactly this is written, and the stream itself when the function
    returns its symbols. -/
theorem run_filters (fd : Handle) (flags : UInt32) (perm : Arena) (chunks : List S8) :
    run undname fd flags [] perm chunks = flush (writes8 (newbufout fd) (filtered undname flags (stream chunks))) ∧
      (fd.console = false → (run undname fd flags [] perm chunks).dev.err = false →
        (run undname fd flags [] perm chunks).dev.files.flatten = filtered undname flags (stream chunks)) ∧
      ((∀ sym, undname (sym ++ [0]) flags = sym) → filtered undname flags (stream chunks) = stream chunks) := by
  refine ⟨run_stream undname fd flags perm chunks, fun hfd herr => ?_, fun hid => ?_⟩
  · rw [run_stream] at herr ⊢
    exact files_text hfd herr
  · have hdecoded : decoded undname flags = fun g => g := by
      funext g
      unfold decoded
      rw [hid, ite_self]
    rw [filtered, hdecoded, List.flatMap_id', runs, List.flatten_splitBy]

end GnuWindows.VcFilt
