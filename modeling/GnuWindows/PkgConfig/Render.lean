/-
  GnuWindows.PkgConfig.Render — package files as lists of lines, written out.

  A line is a comment, a text without a delimiter or a setting: a name, its delimiter and a
  value. A setting is laid out with space around its parts, lines folded wherever the value
  has a byte, hashes escaped, and a remark at the end (`Layout`). What a line must be to be
  read back is part of it.

  What a file can say is another question: a package as its bindings, and those that some
  file gives. A value that ends in a backslash or has space around it is in no file, and
  neither is a name with a delimiter in it.

  Proved:
  - `entries_filebytes`: the parser finds the settings of the lines, in order, whatever the
    layout.
  - `parsepackage_filebytes`: it binds them, or reports the first one that repeats a key.
  - `entries_writable`: all that the parser finds in a file can be written.
  - `parsepackage_expresses`: the bindings that some file gives are the finite ones that can
    be written.
-/
import GnuWindows.PkgConfig.ParseErrors
import Mathlib.Data.Set.Finite.Basic

namespace GnuWindows.PkgConfig

/-! ## Settings and lines -/

structure Setting where
  name : S8
  delim : UInt8
  value : S8
  deriving DecidableEq

namespace Setting

/-- None for an unknown field. -/
def key (s : Setting) : Option Key :=
  if s.delim == 0x3d then some (.variable_ s.name) else (fieldbyname s.name).map .field

/-- The failure when the setting's key is there. -/
def dup (s : Setting) : Parseresult := if s.delim == 0x3d then .dupvariable s.name else .dupfield s.name

end Setting

/-- A name that is read back: it ends at the delimiter, and neither space nor a hash is
    before it. -/
structure Nameable (name : S8) : Prop where
  named : ∀ c ∈ name, namebyte c = true
  first : ∀ c ∈ name.head?, whitespace c = false ∧ c ≠ 0x23
  last : name.rdropWhile whitespace = name

/-- A value that is read back. -/
structure Valuable (value : S8) : Prop where
  oneline : 0x0a ∉ value
  trimmed : trim value = value
  /-- A backslash at the end does not count. -/
  unslashed : value.getLast? ≠ some 0x5c

structure Setting.Writable (s : Setting) : Prop where
  delim : s.delim = 0x3d ∨ s.delim = 0x3a
  name : Nameable s.name
  value : Valuable s.value

/-- How a setting with this value is written. -/
structure Layout (value : S8) where
  indent : S8
  gap : S8
  text : List Piece
  remark : Option S8
  indent_blank : ∀ c ∈ indent, whitespace c = true
  gap_blank : ∀ c ∈ gap, whitespace c = true ∧ namebyte c = true
  text_ok : ∀ x ∈ text, x.Ok
  /-- Without its escapes and the space around it, the text is the value. -/
  text_value : trim (cook text) = value
  remark_line : ∀ r ∈ remark, 0x0a ∉ r

inductive Line where
  | comment (indent remark : S8) (hindent : ∀ c ∈ indent, whitespace c = true) (hremark : 0x0a ∉ remark)
  /-- A line without a delimiter. -/
  | text (line : S8) (h : ∀ c ∈ line, namebyte c = true)
  | setting (s : Setting) (h : s.Writable) (layout : Layout s.value)

namespace Line

def setting? : Line → Option Setting
  | setting s _ _ => some s
  | _ => none

/-- The line as written, without its newline. -/
def bytes : Line → S8
  | comment indent remark _ _ => indent ++ 0x23 :: remark
  | text line _ => line
  | setting s _ layout =>
    layout.indent ++ (s.name ++ layout.gap) ++ s.delim :: (raws layout.text ++ layout.remark.elim [] (0x23 :: ·))

end Line

/-- Newlines are between lines: the last line has one when an empty text follows it. -/
def filebytes (file : List Line) : S8 := [0x0a].intercalate (file.map Line.bytes)

def settings (file : List Line) : List Setting := file.filterMap Line.setting?

/-! ## The text of a value -/

theorem cook_append (l m : List Piece) : cook (l ++ m) = cook l ++ cook m := List.flatMap_append

/-- What is kept at the end of a list is kept behind another list. -/
theorem rdropWhile_append_getLast? {α : Type} {q : α → Bool} {a l : List α} {x : α}
    (h : (l.rdropWhile q).getLast? = some x) : ((a ++ l).rdropWhile q).getLast? = some x := by
  induction a with
  | nil => exact h
  | cons y a ih =>
    have hne : (a ++ l).rdropWhile q ≠ [] := by
      intro hnil
      rw [hnil] at ih
      cases ih
    rw [List.cons_append, rdropWhile_cons, if_neg hne, List.getLast?_cons, ih]
    rfl

/-- A backslash that is kept at the end, or has something kept behind it, begins no escape. -/
theorem slash_plain {l : List Piece} (hok : ∀ x ∈ l, x.Ok)
    (hlast : ((cook (.byte 0x5c :: l)).rdropWhile whitespace).getLast? ≠ some 0x5c) (rest : S8) :
    (raws l ++ rest).head? ≠ some 0x23 ∧ (raws l ++ rest).head? ≠ some 0x0a ∧
      (raws l ++ rest).take 2 ≠ [0x0d, 0x0a] := by
  cases l with
  | nil => exact absurd (by decide) hlast
  | cons x l =>
    obtain ⟨hx, hl⟩ := List.forall_mem_cons.mp hok
    cases x with
    | hash => simp [Piece.raw]
    | cont cr => cases cr <;> simp [Piece.raw]
    | byte c =>
      obtain ⟨hnl, hhash⟩ := hx
      refine ⟨by simpa [Piece.raw] using hhash, by simpa [Piece.raw] using hnl, fun htake => ?_⟩
      obtain ⟨rfl, hnext⟩ : c = 0x0d ∧ (raws l ++ rest).take 1 = [0x0a] := by simpa [Piece.raw] using htake
      cases l with
      | nil => exact hlast (by decide)
      | cons y l =>
        have hhead := (raws_head hl).1
        obtain ⟨d, hd⟩ : ∃ d, (raws (y :: l)).head? = some d := by
          cases y with
          | byte d => exact ⟨d, rfl⟩
          | hash => exact ⟨0x5c, rfl⟩
          | cont cr => cases cr <;> exact ⟨0x5c, rfl⟩
        rw [head?_eq_some hd, List.cons_append, List.take_succ_cons] at hnext
        rw [hd, (List.cons.inj hnext).1] at hhead
        exact hhead rfl

/-- The pieces of a text are read back up to the newline or the remark that follows, unless
    the text ends in a backslash. -/
theorem pieces_raws {l : List Piece} (hok : ∀ x ∈ l, x.Ok)
    (hlast : ((cook l).rdropWhile whitespace).getLast? ≠ some 0x5c) {rest : S8}
    (hrest : ∀ c ∈ rest.head?, c = 0x0a ∨ c = 0x23) : pieces (raws l ++ rest) = (l, rest) := by
  induction l with
  | nil =>
    show pieces rest = _
    cases rest with
    | nil => rw [pieces]
    | cons c rest => rw [pieces, if_pos (hrest c rfl)]
  | cons x l ih =>
    obtain ⟨hx, hl⟩ := List.forall_mem_cons.mp hok
    have hread := ih hl fun h => hlast (rdropWhile_append_getLast? h)
    rw [raws_cons, List.append_assoc]
    cases x with
    | hash =>
      show pieces (0x5c :: 0x23 :: (raws l ++ rest)) = _
      rw [pieces_hash rfl, List.tail_cons, hread]
    | cont cr =>
      cases cr with
      | false =>
        show pieces (0x5c :: 0x0a :: (raws l ++ rest)) = _
        rw [pieces_cont rfl, List.tail_cons, hread]
      | true =>
        show pieces (0x5c :: 0x0d :: 0x0a :: (raws l ++ rest)) = _
        rw [pieces_contcr rfl, List.drop_succ_cons, List.drop_succ_cons, List.drop_zero, hread]
    | byte c =>
      obtain ⟨hnl, hhash⟩ := hx
      have hplain (h : c = 0x5c) := slash_plain hl (h ▸ hlast) rest
      show pieces (c :: (raws l ++ rest)) = _
      rw [pieces, if_neg (by simp [hnl, hhash]), if_neg fun h => (hplain h.1).1 h.2,
        if_neg fun h => (hplain h.1).2.1 h.2, if_neg fun h => (hplain h.1).2.2 h.2, hread]

theorem trim_getLast? (s : S8) : (trim s).getLast? = (s.rdropWhile whitespace).getLast? := by
  unfold trim
  induction s with
  | nil => rfl
  | cons c s ih =>
    by_cases hw : whitespace c = true
    · rw [List.dropWhile_cons_of_pos hw, ih, rdropWhile_cons, if_pos hw]
      split
      · next hnil => rw [hnil]
      · next hne => rw [List.getLast?_cons, List.getLast?_eq_some_getLast hne, Option.getD_some]
    · rw [List.dropWhile_cons_of_neg hw]

/-- The value is read back, and the next line is the one after it. -/
theorem layout_read {v : S8} (layout : Layout v) (hv : v.getLast? ≠ some 0x5c) {rest : S8} (hr : Lineend rest) :
    let body := raws layout.text ++ (layout.remark.elim [] (0x23 :: ·) ++ rest)
    (scanfield body).2 = v ∧ entries (nextline (reftext [] body).2) = entries rest := by
  intro body
  have htail : ∀ c ∈ (layout.remark.elim [] (0x23 :: ·) ++ rest).head?, c = 0x0a ∨ c = 0x23 := by
    cases layout.remark with
    | none => exact fun c hc => .inl (hr c hc)
    | some r => exact fun c hc => .inr (Option.some.inj hc).symm
  have hlast : ((cook layout.text).rdropWhile whitespace).getLast? ≠ some 0x5c := by
    rwa [← trim_getLast?, layout.text_value]
  have hpieces : pieces body = (layout.text, layout.remark.elim [] (0x23 :: ·) ++ rest) :=
    pieces_raws layout.text_ok hlast htail
  constructor
  · have hvalue : refvalue body = v := by
      rw [refvalue_pieces, hpieces, cook_rdropWhile, cook_dropWhile]
      exact layout.text_value
    rw [(value_eq_refvalue_iff body).mpr (by rwa [hvalue]), hvalue]
  · rw [reftext_pieces [] body ⟨by simp, by simp, by simp, by simp⟩, hpieces]
    cases hremark : layout.remark with
    | none =>
      have hnext : nextline rest = rest := if_neg fun h => absurd (hr _ h) (by decide)
      show entries (nextline rest) = _
      rw [hnext]
    | some r =>
      have hnext : nextline (0x23 :: r ++ rest) = skipline (0x23 :: r ++ rest) := if_pos rfl
      have hline : 0x0a ∉ 0x23 :: r := List.not_mem_cons_of_ne_of_not_mem (by decide) (layout.remark_line r hremark)
      show entries (nextline (0x23 :: r ++ rest)) = _
      rw [hnext, skipline_text hline, entries_skipline hr]

/-! ## What the parser finds -/

theorem rdropWhile_append_of_pos {α : Type} {q : α → Bool} {l m : List α} (h : ∀ x ∈ m, q x = true) :
    (l ++ m).rdropWhile q = l.rdropWhile q := by
  rw [List.rdropWhile, List.reverse_append,
    List.dropWhile_append_of_pos fun x hx => h x (List.mem_reverse.mp hx), List.rdropWhile]

/-- What an entry says, without what follows it. -/
def Entry.setting (e : Entry) : Setting := ⟨e.name, e.delim, e.value⟩

theorem entries_setting {s : Setting} (h : s.Writable) (layout : Layout s.value) {rest : S8} (hr : Lineend rest) :
    (entries ((Line.setting s h layout).bytes ++ rest)).map Entry.setting = s :: (entries rest).map Entry.setting := by
  obtain ⟨hvalue, hnext⟩ := layout_read layout h.value.unslashed hr
  generalize hbody : raws layout.text ++ (layout.remark.elim [] (0x23 :: ·) ++ rest) = body at hvalue hnext
  have hbytes : (Line.setting s h layout).bytes ++ rest =
      layout.indent ++ (s.name ++ layout.gap) ++ s.delim :: body := by
    rw [← hbody]
    simp [Line.bytes]
  have hgap : ∀ c ∈ layout.gap, whitespace c = true := fun c hc => (layout.gap_blank c hc).1
  -- space in front of an empty name is part of the indentation
  obtain ⟨indent, name, hsplit, hindent, hnamed, hfirst, hname⟩ : ∃ indent name,
      layout.indent ++ (s.name ++ layout.gap) = indent ++ name ∧ (∀ c ∈ indent, whitespace c = true) ∧
      (∀ c ∈ name, namebyte c = true) ∧ (∀ c ∈ name.head?, whitespace c = false ∧ c ≠ 0x23) ∧
      name.rdropWhile whitespace = s.name := by
    obtain ⟨hnamed, hfirst, hlast⟩ := h.name
    cases hname : s.name with
    | nil =>
      exact ⟨layout.indent ++ layout.gap, [], by simp, List.forall_mem_append.mpr ⟨layout.indent_blank, hgap⟩, by simp,
        by simp, rfl⟩
    | cons c name =>
      rw [hname] at hnamed hfirst hlast
      refine ⟨layout.indent, c :: name ++ layout.gap, rfl, layout.indent_blank, ?_, hfirst, ?_⟩
      · exact List.forall_mem_append.mpr ⟨hnamed, fun c hc => (layout.gap_blank c hc).2⟩
      · rw [rdropWhile_append_of_pos hgap, hlast]
  rw [hbytes, hsplit, entries_named hindent hnamed hfirst h.delim, List.map_cons, hnext, hname]
  show (⟨s.name, s.delim, (scanfield body).2⟩ : Setting) :: _ = _
  rw [hvalue]

/-- A line is found whatever follows it. -/
theorem entries_line (line : Line) {rest : S8} (hr : Lineend rest) :
    (entries (line.bytes ++ rest)).map Entry.setting = line.setting?.toList ++ (entries rest).map Entry.setting := by
  cases line with
  | comment indent remark hindent hremark => rw [Line.bytes, entries_comment hindent hremark hr]; rfl
  | text line h => rw [Line.bytes, entries_nodelim h hr]; rfl
  | setting s h layout => exact entries_setting h layout hr

theorem filebytes_cons (line : Line) (file : List Line) : ∃ rest, filebytes (line :: file) = line.bytes ++ rest ∧
    Lineend rest ∧ entries rest = entries (filebytes file) := by
  cases file with
  | nil =>
    refine ⟨[], ?_, by simp [Lineend], rfl⟩
    rw [filebytes, List.map_singleton, List.intercalate_singleton, List.append_nil]
  | cons next file =>
    refine ⟨0x0a :: filebytes (next :: file), ?_, fun c hc => (Option.some.inj hc).symm, ?_⟩
    · rw [filebytes, List.map_cons, List.map_cons, List.intercalate_cons_cons]
      exact List.append_assoc ..
    · have hskip : skipspace (0x0a :: filebytes (next :: file)) = skipspace (filebytes (next :: file)) :=
        List.dropWhile_cons_of_pos (by decide)
      rw [← entries_skipspace, hskip, entries_skipspace]

/-- The parser finds the settings of the lines, in order, whatever the layout. -/
theorem entries_filebytes (file : List Line) : (entries (filebytes file)).map Entry.setting = settings file := by
  induction file with
  | nil =>
    have hnil : entries (filebytes []) = [] := by
      show entries [] = []
      rw [entries, dif_pos rfl]
    rw [hnil]
    rfl
  | cons line file ih =>
    obtain ⟨rest, hbytes, hend, hrest⟩ := filebytes_cons line file
    rw [hbytes, entries_line line hend, hrest, ih, settings, settings, List.filterMap_cons]
    cases line.setting? <;> rfl

def Setting.keys (ss : List Setting) : List Key := ss.filterMap Setting.key

/-- The package has the values of these settings, and no others. -/
structure Pkg.Has (pkg : Pkg) (ss : List Setting) : Prop where
  bound : ∀ s ∈ ss, ∀ k, s.key = some k → pkg.get k = some (some s.value)
  others : ∀ k, k ∉ Setting.keys ss → pkg.get k = none

theorem keys_entries (es : List Entry) : keys es = Setting.keys (es.map Entry.setting) := by
  rw [Setting.keys, List.filterMap_map]
  rfl

/-- What the parser does with a file, from the settings it finds. -/
theorem parsepackage_settings {src : S8} {ss : List Setting} (h : (entries src).map Entry.setting = ss) :
    ((Setting.keys ss).Nodup → ∃ pkg, parsepackage src = .ok pkg ∧ pkg.Has ss) ∧
      ∀ pre s post, ss = pre ++ s :: post → (Setting.keys pre).Nodup → (∃ k ∈ Setting.keys pre, s.key = some k) →
        parsepackage src = s.dup := by
  subst h
  constructor
  · intro hnodup
    rw [← keys_entries] at hnodup
    refine ⟨_, parsepackage_unset hnodup, fun s hs k hk => ?_, fun k hk => ?_⟩
    · obtain ⟨e, he, rfl⟩ := List.mem_map.mp hs
      exact get_puts_mem (unset_zero hnodup) he hk
    · rw [← keys_entries] at hk
      rw [get_puts_notMem _ hk]
      cases k <;> rfl
  · intro pre s post hsplit hnodup ⟨k, hk, hs⟩
    obtain ⟨es, rest, hes, rfl, hrest⟩ := List.map_eq_append_iff.mp hsplit
    obtain ⟨e, es', rfl, rfl, -⟩ := List.map_eq_cons_iff.mp hrest
    rw [← keys_entries] at hnodup hk
    exact parsepackage_earliest ⟨es', hes, hnodup, k, hs, hk⟩

/-- For all lines in every layout: when the keys of the settings differ, the parser gives
    a package with their values and no others; otherwise it reports the first setting whose
    key is there. -/
theorem parsepackage_filebytes (file : List Line) :
    ((Setting.keys (settings file)).Nodup →
      ∃ pkg, parsepackage (filebytes file) = .ok pkg ∧ pkg.Has (settings file)) ∧
    ∀ pre s post, settings file = pre ++ s :: post → (Setting.keys pre).Nodup →
      (∃ k ∈ Setting.keys pre, s.key = some k) → parsepackage (filebytes file) = s.dup :=
  parsepackage_settings (entries_filebytes file)

/-! ## What is in a file -/

theorem nameable_rdropWhile {text : S8} (h : ∀ c ∈ text, namebyte c = true)
    (hfirst : ∀ c ∈ text.head?, whitespace c = false ∧ c ≠ 0x23) : Nameable (text.rdropWhile whitespace) := by
  have hpre := List.rdropWhile_prefix whitespace text
  refine ⟨fun c hc => h c (hpre.subset hc), fun c hc => hfirst c ?_, List.rdropWhile_idempotent ..⟩
  obtain ⟨post, hpost⟩ := hpre
  rw [← hpost, List.head?_append, Option.mem_def.mp hc]
  rfl

theorem cook_oneline {l : List Piece} (h : ∀ x ∈ l, x.Ok) : 0x0a ∉ cook l := by
  intro hm
  obtain ⟨x, hx, hc⟩ := List.mem_flatMap.mp hm
  cases x with
  | byte c => exact (h _ hx).1 (List.mem_singleton.mp hc).symm
  | hash => exact absurd (List.mem_singleton.mp hc) (by decide)
  | cont cr => cases hc

theorem cook_kept_last (l : List Piece) : ∀ c ∈ (cook (kept l)).getLast?, whitespace c = false ∧ c ≠ 0x5c := by
  induction l using List.reverseRecOn with
  | nil => intro c hc; cases hc
  | append_singleton l x ih =>
    by_cases hx : x.skipped = true
    · rwa [kept, List.rdropWhile_concat_pos _ _ _ hx]
    · rw [kept, List.rdropWhile_concat_neg _ _ _ hx, cook_append]
      cases x with
      | byte c =>
        have hc : whitespace c = false ∧ c ≠ 0x5c := by simpa [Piece.skipped] using hx
        intro d hd
        obtain rfl : c = d := by simpa [cook, Piece.cooked] using hd
        exact hc
      | hash =>
        intro d hd
        obtain rfl : 0x23 = d := by simpa [cook, Piece.cooked] using hd
        decide
      | cont cr => exact absurd rfl hx

/-- A value starts with the first piece that is not blank. -/
theorem cook_kept_lead (l : List Piece) :
    (cook (kept (l.dropWhile Piece.blank))).dropWhile whitespace = cook (kept (l.dropWhile Piece.blank)) := by
  rw [← cook_dropWhile]
  congr 1
  have hfirst := List.head?_dropWhile_not Piece.blank l
  obtain ⟨post, hpost⟩ := kept_prefix (l.dropWhile Piece.blank)
  cases hkept : kept (l.dropWhile Piece.blank) with
  | nil => rfl
  | cons x k =>
    rw [← hpost, hkept, List.cons_append, List.head?_cons] at hfirst
    exact List.dropWhile_cons_of_neg (by simpa using hfirst)

theorem valuable_scanfield (body : S8) : Valuable (scanfield body).2 := by
  rw [scanfield_pieces]
  have hlast := cook_kept_last ((pieces body).1.dropWhile Piece.blank)
  refine ⟨cook_oneline fun x hx => ?_, ?_, fun h => (hlast _ h).2 rfl⟩
  · exact pieces_ok body x ((List.dropWhile_sublist _).mem (( kept_prefix _).subset hx))
  · rw [trim, cook_kept_lead, List.rdropWhile_eq_self_iff]
    intro hne
    simp [(hlast _ (List.getLast?_eq_some_getLast hne)).1]

theorem nameable_scanline {q : S8} (hfirst : ∀ c ∈ q.head?, whitespace c = false ∧ c ≠ 0x23)
    (hdelim : (scanline q).1 = 0x3d ∨ (scanline q).1 = 0x3a) : Nameable (scanline q).2.1 := by
  have hname : ∀ c ∈ q.takeWhile namebyte, namebyte c = true := fun c hc => List.mem_takeWhile_imp hc
  have hsplit : q = q.takeWhile namebyte ++ q.dropWhile namebyte := (List.takeWhile_append_dropWhile ..).symm
  generalize q.takeWhile namebyte = name at hname hsplit
  cases hrest : q.dropWhile namebyte with
  | nil =>
    rw [hrest, List.append_nil] at hsplit
    subst hsplit
    have hstop := delim_of_namebyte (scanline_last hname).1
    rw [Bool.or_eq_false_iff, beq_eq_false_iff_ne, beq_eq_false_iff_ne] at hstop
    exact absurd hdelim (not_or.mpr hstop)
  | cons d body =>
    have hd : namebyte d = false := by
      have := List.head?_dropWhile_not namebyte q
      rwa [hrest] at this
    rw [hrest] at hsplit
    rw [hsplit, scanline_text hname hd]
    refine nameable_rdropWhile hname fun c hc => hfirst c ?_
    rw [hsplit, List.head?_append, Option.mem_def.mp hc]
    rfl

/-- All that the parser finds in a file can be written. -/
theorem entries_writable (src : S8) : ∀ e ∈ entries src, e.setting.Writable := by
  induction src using entries.induct with
  | case1 => simp [entries]
  | case2 p hp q hq ih => rwa [entries, dif_neg hp, if_pos hq]
  | case3 p hp q hq line hl ih =>
    rw [entries, dif_neg hp, if_neg hq, if_pos hl]
    have hdelim : line.1 = 0x3d ∨ line.1 = 0x3a := by simpa using hl
    have hfirst : ∀ c ∈ q.head?, whitespace c = false ∧ c ≠ 0x23 := by
      intro c hc
      have hspace := List.head?_dropWhile_not whitespace p
      rw [show p.dropWhile whitespace = q from rfl, Option.mem_def.mp hc] at hspace
      refine ⟨by simpa using hspace, ?_⟩
      rintro rfl
      exact hq (by rw [Option.mem_def.mp hc]; rfl)
    exact List.forall_mem_cons.mpr ⟨⟨hdelim, nameable_scanline hfirst hdelim, valuable_scanfield _⟩, ih⟩
  | case4 p hp q hq line hl ih => rwa [entries, dif_neg hp, if_neg hq, if_neg hl]

/-! ## What a file can say -/

/-- The value, with its hashes escaped. -/
def escapehashes (value : S8) : List Piece := value.map fun c => if c = 0x23 then .hash else .byte c

theorem cook_escapehashes (value : S8) : cook (escapehashes value) = value := by
  induction value with
  | nil => rfl
  | cons c value ih =>
    show (if c = 0x23 then Piece.hash else .byte c).cooked ++ cook (escapehashes value) = _
    rw [ih]
    split
    · next h => rw [h]; rfl
    · rfl

theorem escapehashes_ok {value : S8} (h : 0x0a ∉ value) : ∀ x ∈ escapehashes value, x.Ok := by
  intro x hx
  obtain ⟨c, hc, rfl⟩ := List.mem_map.mp hx
  split
  · trivial
  · next hne => exact ⟨fun hnl => h (hnl ▸ hc), hne⟩

/-- On a line of its own, and no space. -/
def Layout.plain {value : S8} (h : Valuable value) : Layout value where
  indent := []
  gap := []
  text := escapehashes value
  remark := none
  indent_blank := List.forall_mem_nil _
  gap_blank := List.forall_mem_nil _
  text_ok := escapehashes_ok h.oneline
  text_value := (congrArg trim (cook_escapehashes value)).trans h.trimmed
  remark_line := fun r hr => absurd hr (Option.not_mem_none r)

/-- One plain line for each setting. -/
def plainlines (ss : List Setting) (h : ∀ s ∈ ss, s.Writable) : List Line :=
  ss.pmap (fun s hs => .setting s hs (Layout.plain hs.value)) h

theorem settings_plainlines {ss : List Setting} (h : ∀ s ∈ ss, s.Writable) : settings (plainlines ss h) = ss := by
  induction ss with
  | nil => rfl
  | cons s ss ih => exact congrArg (s :: ·) (ih fun t ht => h t (List.mem_cons_of_mem _ ht))

def Key.name : Key → S8
  | .variable_ name => name
  | .field i => fieldnames i

def Key.delim : Key → UInt8
  | .variable_ _ => 0x3d
  | .field _ => 0x3a

def Key.Writable : Key → Prop
  | .variable_ name => Nameable name
  | .field _ => True

/-- The setting that gives a key its value. -/
def Key.setting (k : Key) (value : S8) : Setting := ⟨k.name, k.delim, value⟩

theorem key_setting (k : Key) (value : S8) : (k.setting value).key = some k := by
  cases k with
  | variable_ name => rfl
  | field i =>
    show (fieldbyname (fieldnames i)).map Key.field = _
    have hfield : ∀ i, fieldbyname (fieldnames i) = some i := by decide
    rw [hfield]
    rfl

theorem writable_setting {k : Key} {value : S8} (hk : k.Writable) (hv : Valuable value) :
    (k.setting value).Writable := by
  cases k with
  | variable_ name => exact ⟨.inl rfl, hk, hv⟩
  | field i =>
    have hname : ∀ i, (∀ c ∈ fieldnames i, namebyte c = true) ∧
        (∀ c ∈ (fieldnames i).head?, whitespace c = false ∧ c ≠ 0x23) ∧
        (fieldnames i).rdropWhile whitespace = fieldnames i := by decide +kernel
    obtain ⟨hnamed, hfirst, hlast⟩ := hname i
    exact ⟨.inr rfl, ⟨hnamed, hfirst, hlast⟩, hv⟩

theorem keys_setting (m : Key → S8) (ks : List Key) : Setting.keys (ks.map fun k => k.setting (m k)) = ks := by
  rw [Setting.keys, List.filterMap_map]
  exact (List.filterMap_congr fun k _ => key_setting k (m k)).trans List.filterMap_some

theorem writable_key {e : Entry} {k : Key} (h : e.setting.Writable) (hk : e.key = some k) : k.Writable := by
  cases k with
  | variable_ name =>
    unfold Entry.key at hk
    split at hk
    · cases hk
      exact h.name
    · obtain ⟨i, -, hi⟩ := Option.map_eq_some_iff.mp hk
      cases hi
  | field i => trivial

/-- For all bindings of variables and fields to values: some file gives a package that has
    these and no others, exactly when they are finitely many, no name has a delimiter, a
    newline or space around it or begins with a hash, and no value has a newline or space
    around it or ends in a backslash. -/
theorem parsepackage_expresses (m : Key → Option S8) :
    (∃ src pkg, parsepackage src = .ok pkg ∧ ∀ k, pkg.get k = (m k).map some) ↔
      {k | m k ≠ none}.Finite ∧ ∀ k v, m k = some v → k.Writable ∧ Valuable v := by
  constructor
  · rintro ⟨src, pkg, hsrc, hget⟩
    have hnodup := parsepackage_ok_iff.mp ⟨pkg, hsrc⟩
    obtain ⟨pkg', hpkg', hbound, hothers⟩ := (parsepackage_settings rfl).1 (keys_entries (entries src) ▸ hnodup)
    obtain rfl : pkg' = pkg := Parseresult.ok.inj (hpkg'.symm.trans hsrc)
    have hentry {k : Key} (hk : m k ≠ none) : ∃ e ∈ entries src, e.key = some k := by
      refine mem_keys.mp (by_contra fun hnot => hk ?_)
      rw [keys_entries] at hnot
      exact Option.map_eq_none_iff.mp ((hget k).symm.trans (hothers k hnot))
    refine ⟨(List.finite_toSet (keys (entries src))).subset fun k hk => mem_keys.mpr (hentry hk), fun k v hv => ?_⟩
    obtain ⟨e, he, hk⟩ := hentry (hv ▸ Option.some_ne_none v)
    have hvalue := (hget k).symm.trans (hbound e.setting (List.mem_map_of_mem he) k hk)
    rw [hv] at hvalue
    obtain rfl : v = e.value := Option.some.inj (Option.some.inj hvalue)
    exact ⟨writable_key (entries_writable src e he) hk, (entries_writable src e he).value⟩
  · rintro ⟨hfinite, hwritable⟩
    let value (k : Key) : S8 := (m k).getD []
    let ss := hfinite.toFinset.toList.map fun k => k.setting (value k)
    have hbound {k : Key} (hk : k ∈ hfinite.toFinset.toList) : m k = some (value k) := by
      obtain ⟨v, hv⟩ := Option.ne_none_iff_exists'.mp (hfinite.mem_toFinset.mp (Finset.mem_toList.mp hk))
      rw [hv]
      exact congrArg some (congrArg (·.getD []) hv).symm
    have hss : ∀ s ∈ ss, s.Writable := by
      intro s hs
      obtain ⟨k, hk, rfl⟩ := List.mem_map.mp hs
      obtain ⟨hname, hv⟩ := hwritable k _ (hbound hk)
      exact writable_setting hname hv
    have hkeys : Setting.keys ss = hfinite.toFinset.toList := keys_setting value _
    obtain ⟨pkg, hpkg, hhas⟩ := (parsepackage_settings ((entries_filebytes _).trans (settings_plainlines hss))).1
      (hkeys ▸ Finset.nodup_toList _)
    refine ⟨_, pkg, hpkg, fun k => ?_⟩
    by_cases hk : k ∈ hfinite.toFinset.toList
    · rw [hhas.bound _ (List.mem_map_of_mem hk) k (key_setting k (value k)), hbound hk]
      rfl
    · rw [hhas.others k (hkeys ▸ hk)]
      have hnone : m k = none := by_contra fun h => hk (Finset.mem_toList.mpr (hfinite.mem_toFinset.mpr h))
      rw [hnone]
      rfl

end GnuWindows.PkgConfig
