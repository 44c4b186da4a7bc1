/-
  GnuWindows.PkgConfig.ParseValue — what the parser makes of the text after a delimiter.

  The reference value (`refvalue`): the text ends at the first newline that is not part of
  a continuation or the first `#` not preceded by a backslash (`reftext`); continuations
  are deleted, `\#` becomes `#`, and whitespace is trimmed at both ends.

  The scans of the code and the reference meet in `pieces`, the text cut into plain bytes,
  escaped hashes and continuations. `skiplead` drops leading pieces, the end that
  `scanvalue` keeps drops trailing ones, and `stripescapes` is `cooked`. They differ in one
  piece: a backslash that escapes nothing does not move the end of the value forward.

  Proved:
  - `scanfield_pieces`: the code's value, and where it stops, in terms of pieces.
  - `refvalue_pieces`: the reference value in terms of pieces.
  - `value_eq_refvalue_iff`: they are equal exactly when the reference value does not end
    in a backslash.
-/
import GnuWindows.PkgConfig.Parse
import Mathlib.Data.List.DropRight

namespace GnuWindows.PkgConfig

/-! ## The reference value -/

/-- A newline after these bytes (the last one first) is part of a continuation. -/
def continued (pre : S8) : Bool := pre.head? == some 0x5c || pre.take 2 == [0x0d, 0x5c]

/-- The text, and the rest from the byte that ended it; `pre` is what was read, the last
    byte first. -/
def reftext (pre : S8) : S8 → S8 × S8
  | [] => ([], [])
  | c :: t =>
    if (c = 0x0a ∧ continued pre = false) ∨ (c = 0x23 ∧ pre.head? ≠ some 0x5c) then ([], c :: t)
    else (c :: (reftext (c :: pre) t).1, (reftext (c :: pre) t).2)

def deletecontinuations : S8 → S8
  | [] => []
  | c :: t =>
    if c = 0x5c ∧ t.head? = some 0x0a then deletecontinuations t.tail
    else if c = 0x5c ∧ t.take 2 = [0x0d, 0x0a] then deletecontinuations (t.drop 2)
    else c :: deletecontinuations t
termination_by s => s.length
decreasing_by all_goals simp only [List.length_tail, List.length_drop, List.length_cons]; omega

/-- Each backslash-hash pair becomes a hash. -/
def unhash : S8 → S8
  | [] => []
  | c :: t =>
    if c = 0x5c ∧ t.head? = some 0x23 then 0x23 :: unhash t.tail
    else c :: unhash t
termination_by s => s.length
decreasing_by all_goals simp only [List.length_tail, List.length_cons]; omega

def trim (s : S8) : S8 := (s.dropWhile whitespace).rdropWhile whitespace

def refvalue (body : S8) : S8 := trim (unhash (deletecontinuations (reftext [] body).1))

/-! ## Pieces -/

inductive Piece where
  | byte (c : UInt8)
  | hash
  | cont (cr : Bool)

namespace Piece

def raw : Piece → S8
  | byte c => [c]
  | hash => [0x5c, 0x23]
  | cont false => [0x5c, 0x0a]
  | cont true => [0x5c, 0x0d, 0x0a]

def cooked : Piece → S8
  | byte c => [c]
  | hash => [0x23]
  | cont _ => []

/-- Trimmed: whitespace and continuations. -/
def blank : Piece → Bool
  | byte c => whitespace c
  | hash => false
  | cont _ => true

/-- What does not move the end of the code's value: blanks and backslashes. -/
def skipped : Piece → Bool
  | byte c => whitespace c || c == 0x5c
  | hash => false
  | cont _ => true

/-- What sets `cleanup`. -/
def escape : Piece → Bool
  | byte _ => false
  | hash => true
  | cont _ => true

/-- A byte piece neither ends the text nor starts a comment. -/
def Ok : Piece → Prop
  | byte c => c ≠ 0x0a ∧ c ≠ 0x23
  | _ => True

end Piece

/-- The text cut into pieces, and the rest from the byte that ended it. -/
def pieces : S8 → List Piece × S8
  | [] => ([], [])
  | c :: t =>
    if c = 0x0a ∨ c = 0x23 then ([], c :: t)
    else if c = 0x5c ∧ t.head? = some 0x23 then (.hash :: (pieces t.tail).1, (pieces t.tail).2)
    else if c = 0x5c ∧ t.head? = some 0x0a then (.cont false :: (pieces t.tail).1, (pieces t.tail).2)
    else if c = 0x5c ∧ t.take 2 = [0x0d, 0x0a] then (.cont true :: (pieces (t.drop 2)).1, (pieces (t.drop 2)).2)
    else (.byte c :: (pieces t).1, (pieces t).2)
termination_by s => s.length
decreasing_by all_goals simp only [List.length_tail, List.length_drop, List.length_cons]; omega

theorem head?_eq_some {t : S8} {c : UInt8} (h : t.head? = some c) : t = c :: t.tail := by
  cases t with
  | nil => cases h
  | cons d t => simp only [List.head?_cons, Option.some.injEq] at h; rw [h]; rfl

theorem take_two_eq {t : S8} {c d : UInt8} (h : t.take 2 = [c, d]) : t = c :: d :: t.drop 2 := by
  have := List.take_append_drop 2 t
  rw [h] at this
  exact this.symm

theorem pieces_hash {t : S8} (h : t.head? = some 0x23) :
    pieces (0x5c :: t) = (.hash :: (pieces t.tail).1, (pieces t.tail).2) := by
  rw [pieces, if_neg (by decide), if_pos ⟨rfl, h⟩]

theorem pieces_cont {t : S8} (h : t.head? = some 0x0a) :
    pieces (0x5c :: t) = (.cont false :: (pieces t.tail).1, (pieces t.tail).2) := by
  rw [pieces, if_neg (by decide), if_neg (by simp [h]), if_pos ⟨rfl, h⟩]

theorem pieces_contcr {t : S8} (h : t.take 2 = [0x0d, 0x0a]) :
    pieces (0x5c :: t) = (.cont true :: (pieces (t.drop 2)).1, (pieces (t.drop 2)).2) := by
  have ht := congrArg List.head? (take_two_eq h)
  rw [List.head?_cons] at ht
  rw [pieces, if_neg (by decide), if_neg (by simp [ht]), if_neg (by simp [ht]), if_pos ⟨rfl, h⟩]

theorem pieces_raw (p : S8) : (pieces p).1.flatMap Piece.raw ++ (pieces p).2 = p := by
  induction p using pieces.induct with
  | case1 => simp [pieces]
  | case2 c t h => simp [pieces, h]
  | case3 c t h1 h ih =>
    rw [pieces, if_neg h1, if_pos h, List.flatMap_cons, List.append_assoc, ih, h.1, head?_eq_some h.2]; rfl
  | case4 c t h1 h2 h ih =>
    rw [pieces, if_neg h1, if_neg h2, if_pos h, List.flatMap_cons, List.append_assoc, ih, h.1, head?_eq_some h.2]; rfl
  | case5 c t h1 h2 h3 h ih =>
    rw [pieces, if_neg h1, if_neg h2, if_neg h3, if_pos h, List.flatMap_cons, List.append_assoc, ih, h.1,
      take_two_eq h.2]; rfl
  | case6 c t h1 h2 h3 h4 ih =>
    rw [pieces, if_neg h1, if_neg h2, if_neg h3, if_neg h4, List.flatMap_cons, List.append_assoc, ih]; rfl

theorem pieces_ok (p : S8) : ∀ x ∈ (pieces p).1, x.Ok := by
  induction p using pieces.induct with
  | case1 => simp [pieces]
  | case2 c t h => simp [pieces, h]
  | case3 c t h1 h ih =>
    rw [pieces, if_neg h1, if_pos h]; exact List.forall_mem_cons.mpr ⟨trivial, ih⟩
  | case4 c t h1 h2 h ih =>
    rw [pieces, if_neg h1, if_neg h2, if_pos h]; exact List.forall_mem_cons.mpr ⟨trivial, ih⟩
  | case5 c t h1 h2 h3 h ih =>
    rw [pieces, if_neg h1, if_neg h2, if_neg h3, if_pos h]; exact List.forall_mem_cons.mpr ⟨trivial, ih⟩
  | case6 c t h1 h2 h3 h4 ih =>
    rw [pieces, if_neg h1, if_neg h2, if_neg h3, if_neg h4]
    exact List.forall_mem_cons.mpr ⟨not_or.mp h1, ih⟩

/-! ## The reference reads pieces -/

/-- Between two pieces: a backslash just read escapes nothing that follows. -/
structure Boundary (pre p : S8) : Prop where
  hash : pre.head? = some 0x5c → p.head? ≠ some 0x23
  newline : pre.head? = some 0x5c → p.head? ≠ some 0x0a
  crlf : pre.head? = some 0x5c → p.take 2 ≠ [0x0d, 0x0a]
  cr : pre.take 2 = [0x0d, 0x5c] → p.head? ≠ some 0x0a

theorem reftext_keep {pre t : S8} {c : UInt8}
    (h : ¬ ((c = 0x0a ∧ continued pre = false) ∨ (c = 0x23 ∧ pre.head? ≠ some 0x5c))) :
    reftext pre (c :: t) = (c :: (reftext (c :: pre) t).1, (reftext (c :: pre) t).2) := by
  rw [reftext, if_neg h]

theorem reftext_pieces (pre p : S8) (hb : Boundary pre p) :
    reftext pre p = ((pieces p).1.flatMap Piece.raw, (pieces p).2) := by
  induction p using pieces.induct generalizing pre with
  | case1 => simp [reftext, pieces]
  | case2 c t h =>
    have hs : (c = 0x0a ∧ continued pre = false) ∨ (c = 0x23 ∧ pre.head? ≠ some 0x5c) := by
      rcases h with rfl | rfl
      · refine Or.inl ⟨rfl, ?_⟩
        have h1 : pre.head? ≠ some 0x5c := fun e => hb.newline e rfl
        have h2 : pre.take 2 ≠ [0x0d, 0x5c] := fun e => hb.cr e rfl
        simp [continued, h1, h2]
      · exact Or.inr ⟨rfl, fun e => hb.hash e rfl⟩
    rw [reftext, if_pos hs, pieces, if_pos h]; rfl
  | case3 c t h1 h ih =>
    obtain ⟨rfl, ht⟩ := h
    rw [pieces_hash ht, head?_eq_some ht, reftext_keep (by simp), reftext_keep (by simp),
      List.tail_cons, ih _ ⟨by simp, by simp, by simp, by simp⟩]
    simp [Piece.raw]
  | case4 c t h1 h2 h ih =>
    obtain ⟨rfl, ht⟩ := h
    rw [pieces_cont ht, head?_eq_some ht, reftext_keep (by simp),
      reftext_keep (by simp [continued]), List.tail_cons, ih _ ⟨by simp, by simp, by simp, by simp⟩]
    simp [Piece.raw]
  | case5 c t h1 h2 h3 h ih =>
    obtain ⟨rfl, ht⟩ := h
    rw [pieces_contcr ht, take_two_eq ht, reftext_keep (by simp),
      reftext_keep (by simp), reftext_keep (by simp [continued])]
    simp only [List.drop_succ_cons, List.drop_zero]
    rw [ih _ ⟨by simp, by simp, by simp, by simp⟩]
    simp [Piece.raw]
  | case6 c t h1 h2 h3 h4 ih =>
    have h1' := not_or.mp h1
    rw [pieces, if_neg h1, if_neg h2, if_neg h3, if_neg h4, reftext_keep (by simp [h1'.1, h1'.2]),
      ih (c :: pre) ⟨?_, ?_, ?_, ?_⟩]
    · simp [Piece.raw]
    · intro e; exact fun e' => h2 ⟨by simpa using e, e'⟩
    · intro e; exact fun e' => h3 ⟨by simpa using e, e'⟩
    · intro e; exact fun e' => h4 ⟨by simpa using e, e'⟩
    · -- a return after a backslash: the newline would have made them a continuation
      intro e e'
      cases pre with
      | nil => simp at e
      | cons d pre =>
        simp only [List.take_succ_cons, List.take_zero, List.cons.injEq, and_true] at e
        apply hb.crlf (by simp [e.2])
        rw [head?_eq_some e', e.1]; rfl

/-! ## Cooking -/

def raws (l : List Piece) : S8 := l.flatMap Piece.raw

def cook (l : List Piece) : S8 := l.flatMap Piece.cooked

/-- With the continuations gone, and the hashes still escaped. -/
def mids (l : List Piece) : S8 := l.flatMap fun
  | .cont _ => []
  | x => x.raw

@[simp] theorem raws_cons (x : Piece) (l : List Piece) : raws (x :: l) = x.raw ++ raws l := rfl
@[simp] theorem cook_cons (x : Piece) (l : List Piece) : cook (x :: l) = x.cooked ++ cook l := rfl
@[simp] theorem mids_byte (c : UInt8) (l : List Piece) : mids (.byte c :: l) = c :: mids l := rfl
@[simp] theorem mids_hash (l : List Piece) : mids (.hash :: l) = 0x5c :: 0x23 :: mids l := rfl
@[simp] theorem mids_cont (cr : Bool) (l : List Piece) : mids (.cont cr :: l) = mids l := rfl

/-- No piece starts with what a backslash before it could escape. -/
theorem raws_head {l : List Piece} (h : ∀ x ∈ l, x.Ok) :
    (raws l).head? ≠ some 0x0a ∧ (raws l).head? ≠ some 0x23 := by
  cases l with
  | nil => simp [raws]
  | cons x l =>
    cases x with
    | byte c =>
      have := h _ List.mem_cons_self
      simpa [Piece.raw, Piece.Ok] using this
    | hash => simp [Piece.raw]
    | cont cr => cases cr <;> simp [Piece.raw]

theorem raws_crlf {l : List Piece} (h : ∀ x ∈ l, x.Ok) : (raws l).take 2 ≠ [0x0d, 0x0a] := by
  cases l with
  | nil => simp [raws]
  | cons x l =>
    cases x with
    | byte c =>
      intro e
      have hl := (raws_head (fun y hy => h y (List.mem_cons_of_mem _ hy))).1
      simp only [raws_cons, Piece.raw, List.singleton_append, List.take_succ_cons, List.cons.injEq] at e
      cases hr : raws l with
      | nil => simp [hr] at e
      | cons d r => simp [hr] at e hl; exact hl e.2
    | hash => simp [Piece.raw]
    | cont cr => cases cr <;> simp [Piece.raw]

theorem mids_head {l : List Piece} (h : ∀ x ∈ l, x.Ok) : (mids l).head? ≠ some 0x23 := by
  induction l with
  | nil => simp [mids]
  | cons x l ih =>
    cases x with
    | byte c =>
      have := h _ List.mem_cons_self
      simpa [Piece.Ok] using this.2
    | hash => simp
    | cont cr => exact ih fun y hy => h y (List.mem_cons_of_mem _ hy)

theorem deletecontinuations_raws {l : List Piece} (h : ∀ x ∈ l, x.Ok) : deletecontinuations (raws l) = mids l := by
  induction l with
  | nil => simp [raws, mids, deletecontinuations]
  | cons x l ih =>
    have hl : ∀ y ∈ l, y.Ok := fun y hy => h y (List.mem_cons_of_mem _ hy)
    cases x with
    | byte c =>
      have h1 : ¬ (c = 0x5c ∧ (raws l).head? = some 0x0a) := fun e => (raws_head hl).1 e.2
      have h2 : ¬ (c = 0x5c ∧ (raws l).take 2 = [0x0d, 0x0a]) := fun e => raws_crlf hl e.2
      rw [raws_cons, Piece.raw, List.singleton_append, deletecontinuations, if_neg h1, if_neg h2, ih hl, mids_byte]
    | hash =>
      have h1 : ¬ ((0x23 : UInt8) = 0x5c ∧ (raws l).head? = some 0x0a) := by simp
      have h2 : ¬ ((0x23 : UInt8) = 0x5c ∧ (raws l).take 2 = [0x0d, 0x0a]) := by simp
      rw [raws_cons, Piece.raw, List.cons_append, List.singleton_append, deletecontinuations, if_neg (by simp),
        if_neg (by simp), deletecontinuations, if_neg h1, if_neg h2, ih hl, mids_hash]
    | cont cr =>
      cases cr
      · rw [raws_cons, Piece.raw, List.cons_append, List.singleton_append, deletecontinuations, if_pos ⟨rfl, rfl⟩,
          List.tail_cons, ih hl, mids_cont]
      · rw [raws_cons, Piece.raw, List.cons_append, List.cons_append, List.singleton_append, deletecontinuations,
          if_neg (by simp), if_pos ⟨rfl, rfl⟩, List.drop_succ_cons, List.drop_succ_cons, List.drop_zero, ih hl,
          mids_cont]

theorem unhash_mids {l : List Piece} (h : ∀ x ∈ l, x.Ok) : unhash (mids l) = cook l := by
  induction l with
  | nil => simp [mids, cook, unhash]
  | cons x l ih =>
    have hl : ∀ y ∈ l, y.Ok := fun y hy => h y (List.mem_cons_of_mem _ hy)
    cases x with
    | byte c =>
      have h1 : ¬ (c = 0x5c ∧ (mids l).head? = some 0x23) := fun e => mids_head hl e.2
      rw [mids_byte, unhash, if_neg h1, ih hl]; rfl
    | hash => rw [mids_hash, unhash, if_pos ⟨rfl, rfl⟩, List.tail_cons, ih hl]; rfl
    | cont cr => rw [mids_cont, ih hl]; rfl

/-- What counts as escaped after a backslash. -/
theorem escaped_slash (t : S8) :
    escaped (0x5c :: t) = if t.head? = some 0x0a then 2 else if t.take 2 = [0x0d, 0x0a] then 3 else 0 := by
  unfold escaped startswith
  cases t with
  | nil => rfl
  | cons d t =>
    by_cases h1 : d = 0x0a
    · simp [h1]
    · cases t with
      | nil => simp [h1]
      | cons e t => by_cases h2 : d = 0x0d <;> by_cases h3 : e = 0x0a <;> simp [h1, h2, h3]

theorem stripescapes_raws {l : List Piece} (h : ∀ x ∈ l, x.Ok) : stripescapes (raws l) = cook l := by
  induction l with
  | nil => simp [raws, cook, stripescapes]
  | cons x l ih =>
    have hl : ∀ y ∈ l, y.Ok := fun y hy => h y (List.mem_cons_of_mem _ hy)
    have ih := ih hl
    cases x with
    | byte c =>
      rw [raws_cons, cook_cons, Piece.raw, Piece.cooked, List.singleton_append, List.singleton_append]
      by_cases hc : c = 0x5c
      · subst hc
        have he : escaped (0x5c :: raws l) = 0 := by
          rw [escaped_slash, if_neg (raws_head hl).1, if_neg (raws_crlf hl)]
        have hh : ¬ ((raws l).head? == some 0x23) = true := by simpa using (raws_head hl).2
        rw [stripescapes, if_pos (by rfl)]
        simp only [he, ne_eq, not_true_eq_false, if_false, hh, Bool.false_eq_true]
        rw [ih]
      · rw [stripescapes, if_neg (by simpa using hc), ih]
    | hash =>
      have he : escaped (0x5c :: 0x23 :: raws l) = 0 := by rw [escaped_slash]; simp
      rw [raws_cons, cook_cons, Piece.raw, Piece.cooked, List.cons_append, List.singleton_append,
        List.singleton_append, stripescapes, if_pos (by rfl)]
      simp only [he, ne_eq, not_true_eq_false, if_false, List.head?_cons, BEq.rfl, if_true]
      rw [stripescapes, if_neg (by decide), ih]
    | cont cr =>
      cases cr
      · have he : escaped (0x5c :: 0x0a :: raws l) = 2 := by rw [escaped_slash]; simp
        rw [raws_cons, Piece.raw, List.cons_append, List.singleton_append, stripescapes, if_pos (by rfl)]
        simp only [he]
        rw [if_pos (by decide), List.drop_succ_cons, List.drop_succ_cons, List.drop_zero, ih]; rfl
      · have he : escaped (0x5c :: 0x0d :: 0x0a :: raws l) = 3 := by rw [escaped_slash]; simp
        rw [raws_cons, Piece.raw, List.cons_append, List.cons_append, List.singleton_append, stripescapes,
          if_pos (by rfl)]
        simp only [he]
        rw [if_pos (by decide), List.drop_succ_cons, List.drop_succ_cons, List.drop_succ_cons, List.drop_zero, ih]; rfl

/-- Without escapes there is nothing to cook. -/
theorem cook_eq_raws {l : List Piece} (h : l.any Piece.escape = false) : cook l = raws l := by
  induction l with
  | nil => rfl
  | cons x l ih =>
    simp only [List.any_cons, Bool.or_eq_false_iff] at h
    cases x with
    | byte c => rw [cook_cons, raws_cons, ih h.2]; rfl
    | hash => simp [Piece.escape] at h
    | cont cr => simp [Piece.escape] at h

/-! ## The code reads pieces -/

theorem skiplead_pieces (p : S8) :
    pieces (skiplead p) = ((pieces p).1.dropWhile Piece.blank, (pieces p).2) := by
  induction p using pieces.induct with
  | case1 => simp [skiplead, pieces]
  | case2 c t h =>
    have hs : skiplead (c :: t) = c :: t := by
      rcases h with rfl | rfl <;> (rw [skiplead]; simp [whitespace])
    rw [hs, pieces, if_pos h]; rfl
  | case3 c t h1 h ih =>
    have he : escaped (c :: t) = 0 := by rw [h.1, escaped_slash, head?_eq_some h.2]; simp
    have hs : skiplead (c :: t) = c :: t := by rw [skiplead]; simp [h.1, h.1 ▸ he]
    rw [hs, pieces, if_neg h1, if_pos h]
    simp [Piece.blank]
  | case4 c t h1 h2 h ih =>
    have he : escaped (c :: t) = 2 := by rw [h.1, escaped_slash, if_pos h.2]
    have hs : skiplead (c :: t) = skiplead t.tail := by
      rw [skiplead, if_pos (by simp [h.1])]
      simp only [he]
      rw [if_pos (by decide), List.drop_succ_cons, List.drop_one]
    rw [hs, ih, pieces, if_neg h1, if_neg h2, if_pos h,
      List.dropWhile_cons_of_pos (by rfl)]
  | case5 c t h1 h2 h3 h ih =>
    have he : escaped (c :: t) = 3 := by
      rw [h.1, escaped_slash, if_neg (fun e => h3 ⟨h.1, e⟩), if_pos h.2]
    have hs : skiplead (c :: t) = skiplead (t.drop 2) := by
      rw [skiplead, if_pos (by simp [h.1])]
      simp only [he]
      rw [if_pos (by decide), List.drop_succ_cons]
    rw [hs, ih, pieces, if_neg h1, if_neg h2, if_neg h3, if_pos h,
      List.dropWhile_cons_of_pos (by rfl)]
  | case6 c t h1 h2 h3 h4 ih =>
    have hp : pieces (c :: t) = (.byte c :: (pieces t).1, (pieces t).2) := by
      rw [pieces, if_neg h1, if_neg h2, if_neg h3, if_neg h4]
    by_cases hc : c = 0x5c
    · have he : escaped (c :: t) = 0 := by
        rw [hc, escaped_slash, if_neg (fun e => h3 ⟨hc, e⟩), if_neg (fun e => h4 ⟨hc, e⟩)]
      have hs : skiplead (c :: t) = c :: t := by rw [skiplead]; simp [hc, hc ▸ he]
      rw [hs, hp]
      simp [Piece.blank, hc, whitespace]
    · by_cases hw : whitespace c = true
      · have hs : skiplead (c :: t) = skiplead t := by
          rw [skiplead, if_neg (by simpa using hc), if_neg (by simp [hw, (not_or.mp h1).1])]
        rw [hs, ih, hp]
        simp [Piece.blank, hw]
      · have hs : skiplead (c :: t) = c :: t := by
          rw [skiplead, if_neg (by simpa using hc), if_pos (by simp [hw])]
        rw [hs, hp]
        simp [Piece.blank, hw]

theorem rdropWhile_cons {α : Type} (q : α → Bool) (x : α) (l : List α) :
    (x :: l).rdropWhile q =
      if l.rdropWhile q = [] then (if q x then [] else [x]) else x :: l.rdropWhile q := by
  induction l using List.reverseRecOn with
  | nil => simp [List.rdropWhile_singleton]
  | append_singleton l y ih =>
    rw [← List.cons_append]
    by_cases hy : q y = true
    · rw [List.rdropWhile_concat_pos _ _ _ hy, List.rdropWhile_concat_pos _ _ _ hy, ih]
    · rw [List.rdropWhile_concat_neg _ _ _ hy, List.rdropWhile_concat_neg _ _ _ hy, if_neg (by simp)]; rfl

/-- Where the line goes on after a value: past the comment that ended it, or at the byte
    that did. -/
def nextline (rest : S8) : S8 := if rest.head? = some 0x23 then skipline rest else rest

/-- The pieces up to the last one that moves the end of the value forward. -/
def kept (l : List Piece) : List Piece := l.rdropWhile Piece.skipped

theorem kept_cons (x : Piece) (l : List Piece) :
    kept (x :: l) = if kept l = [] then (if x.skipped then [] else [x]) else x :: kept l :=
  rdropWhile_cons _ _ _

theorem scanslash_hash {t fin : S8} {cleanup : Bool} (h : t.head? = some 0x23) :
    scanslash 0x5c t fin cleanup = (t.tail, t.tail, true) := by
  have he : escaped t = 0 := by rw [head?_eq_some h]; simp [escaped, startswith]
  simp [scanslash, h, he]

theorem scanslash_cont {t fin : S8} {cleanup : Bool} (h1 : t.head? ≠ some 0x23) (h : escaped (0x5c :: t) ≠ 0) :
    scanslash 0x5c t fin cleanup = (t.drop (escaped (0x5c :: t) - 1), fin, true) := by
  obtain ⟨n, hn⟩ : ∃ n, escaped (0x5c :: t) = n + 2 := by
    rw [escaped_slash] at h ⊢
    split
    · exact ⟨0, rfl⟩
    · split
      · exact ⟨1, rfl⟩
      · simp_all
  simp [scanslash, h1, hn]

theorem scanslash_byte {t fin : S8} {cleanup : Bool} (h1 : t.head? ≠ some 0x23) (h : escaped (0x5c :: t) = 0) :
    scanslash 0x5c t fin cleanup = (t, fin, cleanup) := by
  simp [scanslash, h1, h]

theorem scanvalue_slash (t fin : S8) (cleanup : Bool) :
    scanvalue (0x5c :: t) fin cleanup =
      scanvalue (scanslash 0x5c t fin cleanup).1 (scanslash 0x5c t fin cleanup).2.1
        (scanslash 0x5c t fin cleanup).2.2 := by
  rw [scanvalue, if_neg (by decide), if_neg (by decide), if_pos (by decide)]

/-- The scan stops where the pieces do, and keeps the end of the last piece that is not
    skipped. -/
theorem scanvalue_pieces (p fin : S8) (cleanup : Bool) :
    scanvalue p fin cleanup =
      (nextline (pieces p).2, if kept (pieces p).1 = [] then fin else p.drop (raws (kept (pieces p).1)).length,
        cleanup || (pieces p).1.any Piece.escape) := by
  induction p using pieces.induct generalizing fin cleanup with
  | case1 => simp [scanvalue, pieces, kept, nextline]
  | case2 c t h =>
    rw [pieces, if_pos h]
    rcases h with rfl | rfl
    · rw [scanvalue, if_pos (by decide)]; simp [nextline, kept]
    · rw [scanvalue, if_neg (by decide), if_pos (by decide)]; simp [nextline, kept]
  | case3 c t h1 h ih =>
    obtain ⟨rfl, ht⟩ := h
    rw [scanvalue_slash, scanslash_hash ht, ih, pieces_hash ht, kept_cons]
    have hd : ∀ n, (0x5c :: t).drop (n + 2) = t.tail.drop n := by
      intro n
      rw [List.drop_succ_cons, ← List.drop_one, List.drop_drop, Nat.add_comm]
    by_cases hk : kept (pieces t.tail).1 = []
    · simp only [hk, if_true, Piece.skipped, Bool.false_eq_true, if_false, List.cons_ne_nil, raws_cons]
      rw [show (Piece.hash.raw ++ raws []).length = 0 + 2 from rfl, hd]
      simp [Piece.escape]
    · simp only [hk, if_false, List.cons_ne_nil, raws_cons]
      rw [List.length_append, show Piece.hash.raw.length = 2 from rfl, Nat.add_comm 2, hd]
      simp [Piece.escape]
  | case4 c t h1 h2 h ih =>
    obtain ⟨rfl, ht⟩ := h
    have he : escaped (0x5c :: t) = 2 := by rw [escaped_slash, if_pos ht]
    rw [scanvalue_slash, scanslash_cont (by simp [ht]) (by simp [he]), he, show 2 - 1 = 1 from rfl, List.drop_one, ih,
      pieces_cont ht, kept_cons]
    by_cases hk : kept (pieces t.tail).1 = []
    · simp [hk, Piece.skipped, Piece.escape]
    · simp only [hk, if_false, List.cons_ne_nil, raws_cons]
      rw [List.length_append, show (Piece.cont false).raw.length = 2 from rfl, Nat.add_comm 2,
        show (0x5c :: t).drop ((raws (kept (pieces t.tail).1)).length + 2) =
          t.tail.drop (raws (kept (pieces t.tail).1)).length by
            rw [List.drop_succ_cons, ← List.drop_one, List.drop_drop, Nat.add_comm]]
      simp [Piece.escape]
  | case5 c t h1 h2 h3 h ih =>
    obtain ⟨rfl, ht⟩ := h
    have he : escaped (0x5c :: t) = 3 := by rw [escaped_slash, if_neg (fun e => h3 ⟨rfl, e⟩), if_pos ht]
    have hh : t.head? ≠ some 0x23 := fun e => h2 ⟨rfl, e⟩
    rw [scanvalue_slash, scanslash_cont hh (by simp [he]), he, show 3 - 1 = 2 from rfl, ih,
      pieces_contcr ht, kept_cons]
    by_cases hk : kept (pieces (t.drop 2)).1 = []
    · simp [hk, Piece.skipped, Piece.escape]
    · simp only [hk, if_false, List.cons_ne_nil, raws_cons]
      rw [List.length_append, show (Piece.cont true).raw.length = 3 from rfl, Nat.add_comm 3,
        show (0x5c :: t).drop ((raws (kept (pieces (t.drop 2)).1)).length + 3) =
          (t.drop 2).drop (raws (kept (pieces (t.drop 2)).1)).length by
            rw [List.drop_succ_cons, List.drop_drop, Nat.add_comm]]
      simp [Piece.escape]
  | case6 c t h1 h2 h3 h4 ih =>
    have hp : pieces (c :: t) = (.byte c :: (pieces t).1, (pieces t).2) := by
      rw [pieces, if_neg h1, if_neg h2, if_neg h3, if_neg h4]
    have hsk : scanvalue (c :: t) fin cleanup = scanvalue t (if (Piece.byte c).skipped then fin else t) cleanup := by
      by_cases hc : c = 0x5c
      · subst hc
        have he : escaped (0x5c :: t) = 0 := by
          rw [escaped_slash, if_neg (fun e => h3 ⟨rfl, e⟩), if_neg (fun e => h4 ⟨rfl, e⟩)]
        rw [scanvalue_slash, scanslash_byte (fun e => h2 ⟨rfl, e⟩) he]
        simp [Piece.skipped]
      · have h1' := not_or.mp h1
        rw [scanvalue, if_neg (by simpa using h1'.1), if_neg (by simpa using h1'.2), if_neg (by simpa using hc)]
        simp [Piece.skipped, hc]
    rw [hsk, ih, hp, kept_cons]
    by_cases hk : kept (pieces t).1 = []
    · by_cases hs : (Piece.byte c).skipped = true
      · simp [hk, hs, Piece.escape]
      · simp [hk, hs, Piece.escape, raws, Piece.raw]
    · simp [hk, Piece.escape, Piece.raw]

theorem kept_prefix (l : List Piece) : kept l <+: l := List.rdropWhile_prefix _ _

/-- The end of a prefix of the pieces, as a pointer. -/
theorem span_pieces {p : S8} {l : List Piece} (h : l <+: (pieces p).1) : span p (p.drop (raws l).length) = raws l := by
  obtain ⟨m, hm⟩ := h
  have hp := pieces_raw p
  rw [← hm, List.flatMap_append, List.append_assoc] at hp
  have hl : (raws l).length ≤ p.length := by
    rw [← hp]; simp only [raws, List.length_append]; omega
  rw [span, List.length_drop, show p.length - (p.length - (raws l).length) = (raws l).length by omega]
  conv => lhs; rw [← hp]
  exact List.take_left' rfl

/-- The code's value and where it stops, in terms of pieces. -/
theorem scanfield_pieces (body : S8) :
    scanfield body =
      (nextline (pieces body).2, cook (kept ((pieces body).1.dropWhile Piece.blank))) := by
  have hok : ∀ x ∈ (pieces (skiplead body)).1, x.Ok := pieces_ok _
  have hpre := kept_prefix (pieces (skiplead body)).1
  have hspan : span (skiplead body) (scanvalue (skiplead body) (skiplead body) false).2.1 =
      raws (kept (pieces (skiplead body)).1) := by
    rw [scanvalue_pieces]
    by_cases hk : kept (pieces (skiplead body)).1 = []
    · simp [hk, span, raws]
    · simp only [hk, if_false]
      exact span_pieces hpre
  have hval : (scanfield body).2 = cook (kept (pieces (skiplead body)).1) := by
    simp only [scanfield]
    rw [hspan, scanvalue_pieces]
    simp only [Bool.false_or]
    split
    · exact stripescapes_raws fun x hx => hok x (hpre.subset hx)
    · rename_i hany
      refine (cook_eq_raws ?_).symm
      rw [Bool.not_eq_true, List.any_eq_false] at hany
      exact List.any_eq_false.mpr fun x hx => hany x (hpre.subset hx)
  refine Prod.ext ?_ ?_
  · simp only [scanfield]
    rw [scanvalue_pieces, skiplead_pieces]
  · rw [hval, skiplead_pieces]

/-! ## Where they differ -/

theorem cook_dropWhile (l : List Piece) : cook (l.dropWhile Piece.blank) = (cook l).dropWhile whitespace := by
  induction l with
  | nil => rfl
  | cons x l ih =>
    cases x with
    | byte c =>
      by_cases hw : whitespace c = true
      · rw [List.dropWhile_cons_of_pos (by simpa [Piece.blank] using hw), ih, cook_cons]
        simp [Piece.cooked, hw]
      · rw [List.dropWhile_cons_of_neg (by simpa [Piece.blank] using hw), cook_cons]
        simp [Piece.cooked, hw]
    | hash => rfl
    | cont cr => rw [List.dropWhile_cons_of_pos (by rfl), ih]; rfl

theorem cook_rdropWhile (l : List Piece) : cook (l.rdropWhile Piece.blank) = (cook l).rdropWhile whitespace := by
  induction l using List.reverseRecOn with
  | nil => rfl
  | append_singleton l x ih =>
    have happ : cook (l ++ [x]) = cook l ++ x.cooked := by simp [cook]
    cases x with
    | byte c =>
      by_cases hw : whitespace c = true
      · rw [List.rdropWhile_concat_pos _ _ _ (by simpa [Piece.blank] using hw), ih, happ, Piece.cooked,
          List.rdropWhile_concat_pos _ _ _ hw]
      · rw [List.rdropWhile_concat_neg _ _ _ (by simpa [Piece.blank] using hw), happ, Piece.cooked,
          List.rdropWhile_concat_neg _ _ _ hw]
    | hash =>
      rw [List.rdropWhile_concat_neg _ _ _ (by simp [Piece.blank]), happ, Piece.cooked,
        List.rdropWhile_concat_neg _ _ _ (by decide)]
    | cont cr =>
      rw [List.rdropWhile_concat_pos _ _ _ (by rfl), ih, happ, Piece.cooked, List.append_nil]

/-- The reference value in terms of pieces. -/
theorem refvalue_pieces (body : S8) :
    refvalue body = cook (((pieces body).1.dropWhile Piece.blank).rdropWhile Piece.blank) := by
  have hb : Boundary [] body := ⟨by simp, by simp, by simp, by simp⟩
  rw [refvalue, reftext_pieces [] body hb]
  rw [show (pieces body).1.flatMap Piece.raw = raws (pieces body).1 from rfl,
    deletecontinuations_raws (pieces_ok body), unhash_mids (pieces_ok body), trim, cook_rdropWhile, cook_dropWhile]

/-- A skipped piece that is not blank is a backslash. -/
theorem skipped_of_blank {x : Piece} (h : x.blank = true) : x.skipped = true := by
  cases x <;> simp_all [Piece.blank, Piece.skipped]

theorem kept_rdropWhile (l : List Piece) : kept (l.rdropWhile Piece.blank) = kept l := by
  induction l using List.reverseRecOn with
  | nil => rfl
  | append_singleton l x ih =>
    by_cases hb : x.blank = true
    · rw [List.rdropWhile_concat_pos _ _ _ hb, ih, kept, kept, List.rdropWhile_concat_pos _ _ _ (skipped_of_blank hb)]
    · rw [List.rdropWhile_concat_neg _ _ _ hb]

/-- The code's value is the reference value exactly when that does not end in a backslash:
    one that does loses it. -/
theorem value_eq_refvalue_iff (body : S8) :
    (scanfield body).2 = refvalue body ↔ (refvalue body).getLast? ≠ some 0x5c := by
  rw [scanfield_pieces, refvalue_pieces, ← kept_rdropWhile]
  generalize hm : ((pieces body).1.dropWhile Piece.blank).rdropWhile Piece.blank = m
  have hlast : ∀ hne : m ≠ [], ¬ (m.getLast hne).blank = true := by
    intro hne
    subst hm; exact List.rdropWhile_last_not _ _ hne
  cases m using List.reverseRecOn with
  | nil => simp [cook, kept]
  | append_singleton m x =>
    have hx : ¬ x.blank = true := by simpa using hlast (by simp)
    have happ : cook (m ++ [x]) = cook m ++ x.cooked := by simp [cook]
    cases x with
    | cont cr => exact absurd rfl hx
    | hash =>
      have hk : kept (m ++ [Piece.hash]) = m ++ [Piece.hash] :=
        List.rdropWhile_concat_neg _ _ _ (by simp [Piece.skipped])
      simp [hk, happ, Piece.cooked]
    | byte c =>
      have hw : whitespace c = false := by simpa [Piece.blank] using hx
      by_cases hc : c = 0x5c
      · subst hc
        have hk : kept (m ++ [Piece.byte 0x5c]) = kept m :=
          List.rdropWhile_concat_pos _ _ _ (by simp [Piece.skipped])
        have hlen : (cook (kept m)).length ≤ (cook m).length := by
          obtain ⟨r, hr⟩ := kept_prefix m
          conv => rhs; rw [← hr]
          simp [cook]
        simp only [happ, Piece.cooked, hk, List.getLast?_concat, ne_eq, not_true_eq_false, iff_false]
        intro e
        have := congrArg List.length e
        simp only [List.length_append, List.length_singleton] at this
        omega
      · have hk : kept (m ++ [Piece.byte c]) = m ++ [Piece.byte c] :=
          List.rdropWhile_concat_neg _ _ _ (by simp [Piece.skipped, hc, hw])
        simp [hk, happ, Piece.cooked, hc]

end GnuWindows.PkgConfig
