/-
  GnuWindows.PkgConfig.DequoteProofs — the arguments that `dequote` and `appendfield`
  make of a field.

  Each byte of a word is printed after a backslash or plain (`printed`), so the word an
  argument stands for is what `unescape` gives. The branch for metacharacters takes every
  backslash in double quotes before the escape flag is set: `dequote` reads the words of
  the splitter without escapes (`dequoteloop_splitword`).

  Proved:
  - `appendfield_words_iff`: the arguments are the reference words exactly when no
    backslash escapes in double quotes and the field does not end in whitespace.
  - `dequote_safe_iff`: an argument is safe in a shell command line exactly when the
    token it comes from has no semicolon, which `shellmeta` does not list; a line of safe
    arguments is split into the words they stand for.
-/
import GnuWindows.PkgConfig.Args
import GnuWindows.PkgConfig.Splitter
import Mathlib.Data.Bool.AllAny
import Mathlib.Data.List.TakeWhile

namespace GnuWindows.PkgConfig

/-! ## What is printed for a byte -/

/-- A byte that is not a quote's delimiter. -/
def printed (c : UInt8) : S8 :=
  if whitespace c || shellmeta c then [0x5c, quotedbyte c] else [quotedbyte c]

theorem pathdecode_of_not_shellmeta {c : UInt8} (h : shellmeta c = false) : pathdecode c = c := by
  by_contra hd
  rw [shellmeta, List.any_eq_false] at h
  exact h 0x22 (by decide) (by simp [hd])

theorem ne_of_whitespace {c d : UInt8} (hc : whitespace c = true) (hd : whitespace d = false) : c ≠ d := by
  intro he; subst he; rw [hc] at hd; cases hd

theorem ne_of_not_whitespace {c d : UInt8} (hc : ¬ whitespace c = true) (hd : whitespace d = true) : c ≠ d := by
  intro he; subst he; exact hc hd

theorem dequotebyte_none_eq (c : UInt8) :
    dequotebyte .none false c =
      if whitespace c = true then none
      else if c = 0x27 ∨ c = 0x22 then some ([], nextquote .none c, false)
      else some (printed c, .none, false) := by
  by_cases hw : whitespace c = true
  · simp only [dequotebyte, hw, if_true]; rfl
  · have h20 : c ≠ 0x20 := ne_of_not_whitespace hw (by decide)
    simp only [dequotebyte, hw, Bool.false_eq_true, if_false, beq_iff_eq]
    by_cases h1 : c = 0x27
    · simp [h1, nextquote]
    · by_cases h2 : c = 0x22
      · simp [h2, nextquote]
      · by_cases hs : shellmeta c = true
        · simp [h1, h2, hs, printed, quotedbyte, hw]
        · simp [h1, h2, hs, h20, printed, quotedbyte, hw, pathdecode_of_not_shellmeta (by simpa using hs)]

theorem dequotebyte_single_eq (c : UInt8) :
    dequotebyte .single false c =
      if c = 0x27 then some ([], .none, false) else some (printed c, .single, false) := by
  by_cases hw : whitespace c = true
  · have h : c ≠ 0x27 := ne_of_whitespace hw (by decide)
    simp only [dequotebyte, printed, quotedbyte, hw, h, if_true, if_false]; rfl
  · have h20 : c ≠ 0x20 := ne_of_not_whitespace hw (by decide)
    simp only [dequotebyte, hw, Bool.false_eq_true, if_false, beq_iff_eq]
    by_cases h1 : c = 0x27
    · simp [h1]
    · by_cases hs : shellmeta c = true <;> simp [h1, h20, hs, printed, quotedbyte, hw]

theorem dequotebyte_double_eq (c : UInt8) :
    dequotebyte .double false c =
      if c = 0x22 then some ([], .none, false) else some (printed c, .double, false) := by
  by_cases hw : whitespace c = true
  · have h : c ≠ 0x22 := ne_of_whitespace hw (by decide)
    simp only [dequotebyte, printed, quotedbyte, hw, h, if_true, if_false]; rfl
  · have h20 : c ≠ 0x20 := ne_of_not_whitespace hw (by decide)
    simp only [dequotebyte, hw, Bool.false_eq_true, if_false, beq_iff_eq]
    by_cases h1 : c = 0x22
    · simp [h1]
    · by_cases hs : shellmeta c = true
      · simp [h1, hs, printed, quotedbyte, hw]
      · -- a backslash is a metacharacter: the flag stays clear
        have h5c : c ≠ 0x5c := by intro he; subst he; exact hs (by decide)
        simp [h1, h20, hs, printed, quotedbyte, hw, h5c]

/-- Undo backslash escapes: a backslash followed by any byte gives that byte. -/
def unescape : S8 → S8
  | 0x5c :: c :: t => c :: unescape t
  | c :: t => c :: unescape t
  | [] => []

theorem unescape_plain {c : UInt8} (h : c ≠ 0x5c) (t : S8) : unescape (c :: t) = c :: unescape t := by
  rw [unescape.eq_def]
  split
  · rename_i heq; simp only [List.cons.injEq] at heq; exact absurd heq.1 h
  · rename_i heq; cases heq; rfl
  · rename_i heq; cases heq

theorem printed_cases (c : UInt8) :
    printed c = [0x5c, quotedbyte c] ∨ (printed c = [c] ∧ quotedbyte c = c ∧ c ≠ 0x5c) := by
  unfold printed
  by_cases h : (whitespace c || shellmeta c) = true
  · exact Or.inl (if_pos h)
  · rw [if_neg h]
    simp only [Bool.or_eq_true, not_or, Bool.not_eq_true] at h
    have hq : quotedbyte c = c := by simp [quotedbyte, h.1, pathdecode_of_not_shellmeta h.2]
    refine Or.inr ⟨by rw [hq], hq, ?_⟩
    intro he
    subst he
    exact absurd h.2 (by decide)

theorem unescape_printed (c : UInt8) (t : S8) : unescape (printed c ++ t) = quotedbyte c :: unescape t := by
  rcases printed_cases c with h | ⟨h, hq, hc⟩
  · rw [h]; rfl
  · rw [h, hq]; exact unescape_plain hc t

/-- A byte ends the word, opens or closes a quote, or is printed. -/
theorem dequotebyte_eq (quote : Quote) (c : UInt8) :
    dequotebyte quote false c =
      if quote = .none ∧ whitespace c = true then none
      else if nextquote quote c = quote then some (printed c, quote, false)
      else some ([], nextquote quote c, false) := by
  cases quote with
  | none =>
    rw [dequotebyte_none_eq]
    by_cases h1 : c = 0x27
    · subst h1; rfl
    · by_cases h2 : c = 0x22
      · subst h2; rfl
      · simp [nextquote, h1, h2]
  | single =>
    rw [dequotebyte_single_eq]
    by_cases h1 : c = 0x27 <;> simp [nextquote, h1]
  | double =>
    rw [dequotebyte_double_eq]
    by_cases h1 : c = 0x22 <;> simp [nextquote, h1]

/-- And so does a step of the splitter without escapes. -/
theorem splitstep_eq (quote : Quote) (c : UInt8) (s : S8) :
    splitstep false quote c s =
      if quote = .none ∧ whitespace c = true then none
      else if nextquote quote c = quote then some ([quotedbyte c], quote, s)
      else some ([], nextquote quote c, s) := by
  cases quote with
  | none =>
    by_cases hw : whitespace c = true
    · simp [splitstep, hw]
    · by_cases h1 : c = 0x27
      · subst h1; rfl
      · by_cases h2 : c = 0x22
        · subst h2; rfl
        · simp [splitstep, nextquote, h1, h2, hw, quotedbyte]
  | single => by_cases h1 : c = 0x27 <;> simp [splitstep, nextquote, h1]
  | double => by_cases h1 : c = 0x22 <;> simp [splitstep, nextquote, h1]

theorem nextquote_ne {quote : Quote} {c : UInt8} (h : nextquote quote c ≠ quote) : c = 0x27 ∨ c = 0x22 := by
  by_contra hc
  rw [not_or] at hc
  cases quote <;> simp [nextquote, hc] at h

/-- The loop reads the word of the splitter without escapes, and ends in a quote when that
    finds it open. -/
theorem dequoteloop_splitword (quote : Quote) (s : S8) :
    splitword false quote s =
      if (dequoteloop s quote false).2.2 = .none then
        some (unescape (dequoteloop s quote false).1, (dequoteloop s quote false).2.1)
      else none := by
  induction s generalizing quote with
  | nil => simp [splitword, dequoteloop, unescape]
  | cons c s ih =>
    have hd := dequotebyte_eq quote c
    have hs := splitstep_eq quote c s
    by_cases hstop : quote = .none ∧ whitespace c = true
    · rw [if_pos hstop] at hd hs
      obtain ⟨rfl, _⟩ := hstop
      rw [splitword_stop hs]
      simp [dequoteloop, hd, unescape]
    · rw [if_neg hstop] at hd hs
      by_cases hq : nextquote quote c = quote
      · rw [if_pos hq] at hd hs
        rw [splitword_step hs, ih]
        simp only [dequoteloop, hd, unescape_printed]
        split <;> simp
      · rw [if_neg hq] at hd hs
        rw [splitword_step hs, ih]
        simp only [dequoteloop, hd]
        split <;> simp

/-! ## The arguments of a field -/

/-- The next token, by what the splitter without escapes reads. -/
theorem dequote_splitword (s : S8) :
    match splitword false .none (s.dropWhile whitespace) with
    | none => (dequote s).ok = false
    | some w => (dequote s).ok = true ∧ unescape (dequote s).arg = w.1 ∧ (dequote s).tail = w.2 := by
  rw [dequoteloop_splitword]
  by_cases h : (dequoteloop (s.dropWhile whitespace) .none false).2.2 = .none
  · simp [dequote, h]
  · simp [dequote, h]

theorem appendfield_nil (err : Errbuf) (w : Fieldwriter) (p : Pkg) : appendfield err w p [] = .ok w := by
  rw [appendfield]; simp

/-- With no filter, the argument read is appended and the rest of the field follows. -/
theorem appendfield_any (err : Errbuf) {w : Fieldwriter} (p : Pkg) {field : S8} (hf : w.filter = .any)
    (h : field ≠ []) :
    appendfield err w p field =
      if (dequote field).ok = true then
        appendfield err { w with args := appendarg w.args (dequote field).arg } p (dequote field).tail
      else .error (failquote err p) := by
  rw [appendfield, dif_neg h]
  simp only [hf, filterok, if_true]
  split <;> rfl

theorem appendfield_extends {err : Errbuf} {w w' : Fieldwriter} {p : Pkg} {field : S8}
    (h : appendfield err w p field = .ok w') : ∃ args, w'.args.list = w.args.list ++ args := by
  induction w, field using appendfield.induct with
  | case1 w => rw [appendfield_nil] at h; cases h; exact ⟨[], by simp⟩
  | case2 w field hne r hok ih =>
    rw [appendfield, dif_neg hne] at h
    simp only [r] at hok
    simp only [hok, dif_pos] at h
    obtain ⟨args, ih⟩ := ih h
    by_cases hf : filterok w.filter (dequote field).arg = true
    · exact ⟨(dequote field).arg :: args, by rw [ih]; simp [r, hf, appendarg]⟩
    · exact ⟨args, by rw [ih]; simp [r, hf]⟩
  | case3 w field hne r hok =>
    rw [appendfield, dif_neg hne] at h
    simp only [r] at hok
    simp [hok] at h

/-- The arguments of a field stand for `words`. -/
def Appends (err : Errbuf) (w : Fieldwriter) (p : Pkg) (field : S8) (words : List S8) : Prop :=
  ∃ w' args, appendfield err w p field = .ok w' ∧ w'.args.list = w.args.list ++ args ∧ args.map unescape = words

theorem appends_nil (err : Errbuf) (w : Fieldwriter) (p : Pkg) (words : List S8) :
    Appends err w p [] words ↔ words = [] := by
  constructor
  · intro happ
    obtain ⟨w', args, h, hl, hw⟩ := happ
    rw [appendfield_nil] at h
    cases h
    have : args = [] := by simpa using hl
    rw [← hw, this]; rfl
  · intro hwords
    subst hwords
    exact ⟨w, [], appendfield_nil err w p, by simp, rfl⟩

theorem appends_cons (err : Errbuf) {w : Fieldwriter} (p : Pkg) {field : S8} (words : List S8) (hf : w.filter = .any)
    (h : field ≠ []) :
    Appends err w p field words ↔ (dequote field).ok = true ∧ ∃ rest, words = unescape (dequote field).arg :: rest ∧
      Appends err { w with args := appendarg w.args (dequote field).arg } p (dequote field).tail rest := by
  unfold Appends
  rw [appendfield_any err p hf h]
  by_cases hok : (dequote field).ok = true
  · simp only [hok, if_true, true_and]
    constructor
    · intro happ
      obtain ⟨w', args, hr, hl, hw⟩ := happ
      obtain ⟨args', hl'⟩ := appendfield_extends hr
      have e : args = (dequote field).arg :: args' := by
        simpa [appendarg] using hl.symm.trans hl'
      exact ⟨args'.map unescape, by rw [← hw, e]; rfl, w', args', hr, hl', rfl⟩
    · intro hrest
      obtain ⟨rest, rfl, w', args, hr, hl, hw⟩ := hrest
      exact ⟨w', (dequote field).arg :: args, hr, by simp [hl, appendarg], by simp [hw]⟩
  · simp [hok]

theorem blank_last {s : S8} (h : s ≠ []) (hb : s.dropWhile whitespace = []) :
    ∃ c ∈ s.getLast?, whitespace c = true := by
  obtain ⟨c, hc⟩ := Option.isSome_iff_exists.mp (List.getLast?_isSome.mpr h)
  exact ⟨c, hc, List.dropWhile_eq_nil_iff.mp hb c (List.mem_of_getLast? hc)⟩

theorem hasescape_skip (s : S8) : hasescape .none (s.dropWhile whitespace) = hasescape .none s := by
  induction s with
  | nil => rfl
  | cons c s ih =>
    by_cases hw : whitespace c = true
    · have h1 : c ≠ 0x27 := ne_of_whitespace hw (by decide)
      have h2 : c ≠ 0x22 := ne_of_whitespace hw (by decide)
      rw [List.dropWhile_cons_of_pos hw, ih, hasescape]
      simp [nextquote, h1, h2]
    · rw [List.dropWhile_cons_of_neg hw]

/-- With no filter, the arguments `appendfield` appends for a balanced field stand for the
    words of the reference splitter exactly when no backslash in double quotes escapes and
    the field does not end in whitespace. -/
theorem appendfield_words_iff (err : Errbuf) {w : Fieldwriter} (p : Pkg) {field : S8} {words : List S8}
    (hf : w.filter = .any) (hb : refwords field = some words) :
    Appends err w p field words ↔ hasescape .none field = false ∧ ∀ c ∈ field.getLast?, whitespace c = false := by
  induction hn : field.length using Nat.strongRecOn generalizing w field words with
  | _ n ih =>
  subst hn
  by_cases hne : field = []
  · subst hne
    rw [refwords_blank rfl] at hb
    cases hb
    simp [appends_nil, hasescape]
  · rw [appends_cons err p words hf hne]
    have hd := dequote_splitword field
    cases hs : field.dropWhile whitespace with
    | nil =>
      -- only whitespace: one argument for no word
      rw [refwords_blank hs] at hb
      cases hb
      obtain ⟨c, hc, hw⟩ := blank_last hne hs
      constructor
      · intro happ; obtain ⟨_, rest, h, _⟩ := happ; cases h
      · intro hno; obtain ⟨_, h⟩ := hno; rw [h c hc] at hw; cases hw
    | cons c t =>
      rw [refwords_word hs, Option.bind_eq_some_iff] at hb
      obtain ⟨wd, hwd, hb⟩ := hb
      rw [Option.map_eq_some_iff] at hb
      obtain ⟨words', hwords, rfl⟩ := hb
      rw [hs] at hd
      have hsuf : (c :: t) <:+ field := hs ▸ List.dropWhile_suffix _
      have hlt : wd.2.length < field.length :=
        Nat.lt_of_lt_of_le (Nat.lt_succ_of_le (splitword_lt (dropWhile_head hs) hwd)) hsuf.length_le
      -- the end of the field is the end of what follows the word, or of the word
      have hlast : (∀ c ∈ field.getLast?, whitespace c = false) ↔ ∀ c ∈ wd.2.getLast?, whitespace c = false := by
        by_cases hnil : wd.2 = []
        · rw [getLast?_suffix hsuf (by simp), hnil]
          exact ⟨fun _ => by simp, fun _ => splitword_last hwd hnil⟩
        · rw [getLast?_suffix ((splitword_suffix hwd).trans hsuf) hnil]
      have hesc : hasescape .none field = hasescape .none (c :: t) := by rw [← hs, hasescape_skip]
      rw [hlast, hesc]
      have hrest := ih _ hlt (w := { w with args := appendarg w.args (dequote field).arg }) hf hwords rfl
      constructor
      · intro hcode
        obtain ⟨hok, rest, he, happ⟩ := hcode
        cases hw' : splitword false .none (c :: t) with
        | none => rw [hw'] at hd; rw [hd] at hok; cases hok
        | some w' =>
          rw [hw'] at hd
          simp only [List.cons.injEq] at he
          obtain ⟨ht, hh⟩ := splitword_agree hwd w' hw' (by rw [← hd.2.1, he.1])
          rw [← he.2, hd.2.2, ht] at happ
          obtain ⟨h1, h2⟩ := hrest.mp happ
          exact ⟨by rw [hh]; exact h1, h2⟩
      · intro hno
        obtain ⟨h1, h2⟩ := hno
        have hw' := (splitword_plain h1).symm.trans hwd
        have hh := (splitword_agree hwd wd hw' rfl).2
        rw [hw'] at hd
        refine ⟨hd.1, words', by rw [hd.2.1], ?_⟩
        rw [hd.2.2]
        exact hrest.mpr ⟨by rw [← hh]; exact h1, h2⟩

theorem appendfield_words_iff_quoted :
    Appends .stderr (newfieldwriter .any) Pkg.zero (S " -I'a b'  \"-DX=(1)\"")
      [S "-Ia b", S "-DX=(1)"] := by
  refine (appendfield_words_iff .stderr Pkg.zero rfl (by decide +kernel)).mpr ⟨by decide, ?_⟩
  intro c hc
  rw [show (S " -I'a b'  \"-DX=(1)\"").getLast? = some 0x22 by decide] at hc
  cases hc
  rfl

/-- The escaped double quotes end the section and open it again. -/
theorem escaped_quote_splits :
    refwords (S "-DX=\"say \\\"hi\\\"\"") = some [S "-DX=say \"hi\""] ∧
      ¬ Appends .stderr (newfieldwriter .any) Pkg.zero (S "-DX=\"say \\\"hi\\\"\"") [S "-DX=say \"hi\""] := by
  refine ⟨by decide +kernel, ?_⟩
  intro happ
  obtain ⟨w', args, h, hl, hw⟩ := happ
  have hc : (appendfield .stderr (newfieldwriter .any) Pkg.zero (S "-DX=\"say \\\"hi\\\"\"")).toOption.map
      (·.args.list.map unescape) = some [S "-DX=say \\hi\\"] := by decide +kernel
  rw [h] at hc
  simp only [Except.toOption, Option.map_some, Option.some.injEq, hl, newfieldwriter, Args.empty, List.nil_append,
    hw] at hc
  exact absurd hc (by decide)

/-! ## Shell safety -/

/-- The bytes a shell gives a meaning when they are not escaped, except those passed on
    purpose: dollar and parentheses. -/
def shellspecial (c : UInt8) : Bool := whitespace c || (S "'\"\\;&|<>`#*?[]\x7b\x7d!").any (· == c)

/-- Read as escaped pairs and plain bytes, no plain byte is special. -/
def shellsafe : S8 → Bool
  | 0x5c :: _ :: t => shellsafe t
  | c :: t => !shellspecial c && shellsafe t
  | [] => true

/-- The bytes of the token at the beginning, up to whitespace outside quotes. -/
def rawtoken : Quote → S8 → S8
  | _, [] => []
  | quote, c :: s => if quote = .none ∧ whitespace c = true then [] else c :: rawtoken (nextquote quote c) s

/-- How a shell reads a word, as far as escaped pairs and plain bytes go: a backslash takes
    the next byte, whitespace ends it. A POSIX shell also drops a backslash before a newline
    and expands a leading tilde. -/
def shellword : S8 → S8 × S8
  | 0x5c :: c :: t => (c :: (shellword t).1, (shellword t).2)
  | c :: t => if whitespace c then ([], c :: t) else (c :: (shellword t).1, (shellword t).2)
  | [] => ([], [])

theorem shellword_plain {c : UInt8} (h : c ≠ 0x5c) (t : S8) :
    shellword (c :: t) = if whitespace c then ([], c :: t) else (c :: (shellword t).1, (shellword t).2) := by
  rw [shellword.eq_def]
  split
  · rename_i heq; simp only [List.cons.injEq] at heq; exact absurd heq.1 h
  · rename_i heq; cases heq; rfl
  · rename_i heq; cases heq

theorem shellword_le (line : S8) : (shellword line).2.length ≤ line.length := by
  fun_induction shellword line with
  | case1 c t ih => exact Nat.le_succ_of_le (Nat.le_succ_of_le ih)
  | case2 => exact Nat.le_refl _
  | case3 c t hne hw ih => exact Nat.le_succ_of_le ih
  | case4 => exact Nat.le_refl _

theorem shellword_lt {c : UInt8} (hc : whitespace c = false) (t : S8) : (shellword (c :: t)).2.length ≤ t.length := by
  by_cases h : c = 0x5c
  · subst h
    cases t with
    | nil => exact Nat.le_refl _
    | cons e t => exact Nat.le_succ_of_le (shellword_le t)
  · rw [shellword_plain h, hc]
    exact shellword_le t

theorem shellword_dropWhile_lt {line : S8} (h : line.dropWhile whitespace ≠ []) :
    (shellword (line.dropWhile whitespace)).2.length < line.length := by
  have hle := (List.dropWhile_sublist whitespace (l := line)).length_le
  have hstop := List.head?_dropWhile_not whitespace line
  cases hrest : line.dropWhile whitespace with
  | nil => exact absurd hrest h
  | cons c t =>
    rw [hrest] at hle hstop
    exact Nat.lt_of_lt_of_le (Nat.lt_succ_of_le (shellword_lt (by simpa using hstop) t)) hle

/-- The words of a line. -/
def shellwords (line : S8) : List S8 :=
  if _h : line.dropWhile whitespace = [] then []
  else
    let word := shellword (line.dropWhile whitespace)
    word.1 :: shellwords word.2
termination_by line.length
decreasing_by exact shellword_dropWhile_lt _h

@[simp] theorem shellwords_nil : shellwords [] = [] := by
  rw [shellwords]
  exact dif_pos rfl

theorem shellsafe_plain {c : UInt8} (h : c ≠ 0x5c) (t : S8) :
    shellsafe (c :: t) = (!shellspecial c && shellsafe t) := by
  rw [shellsafe.eq_def]
  split
  · rename_i heq; simp only [List.cons.injEq] at heq; exact absurd heq.1 h
  · rename_i heq; cases heq; rfl
  · rename_i heq; cases heq

/-- Of the bytes printed plain, only the semicolon is special. -/
theorem shellspecial_plain {c : UInt8} (hw : whitespace c = false) (hm : shellmeta c = false) :
    shellspecial c = (c == 0x3b) := by
  have hlisted : ∀ m ∈ S "'\"\\;&|<>`#*?[]\x7b\x7d!", m = 0x3b ∨ shellmeta m = true :=
    List.all_iff_forall_prop.mp (by decide)
  rw [shellspecial, hw, Bool.false_or]
  by_cases hc : c = 0x3b
  · subst hc; decide
  · rw [beq_eq_false_iff_ne.mpr hc, List.any_eq_false]
    intro m hmem hmc
    rw [beq_iff_eq] at hmc
    subst hmc
    rcases hlisted _ hmem with h | h
    · exact hc h
    · rw [hm] at h; cases h

theorem shellsafe_printed (c : UInt8) (t : S8) : shellsafe (printed c ++ t) = (c != 0x3b && shellsafe t) := by
  unfold printed
  by_cases h : (whitespace c || shellmeta c) = true
  · have hc : c ≠ 0x3b := by intro he; subst he; exact absurd h (by decide)
    simp [h, shellsafe, hc]
  · rw [if_neg h]
    simp only [Bool.or_eq_true, not_or, Bool.not_eq_true] at h
    have hq : quotedbyte c = c := by simp [quotedbyte, h.1, pathdecode_of_not_shellmeta h.2]
    have hc : c ≠ 0x5c := by intro he; subst he; exact absurd h.2 (by decide)
    rw [hq, List.singleton_append, shellsafe_plain hc, shellspecial_plain h.1 h.2]
    rfl

/-- What the loop prints is safe when the token it reads has no semicolon. -/
theorem dequoteloop_safe (quote : Quote) (s : S8) :
    shellsafe (dequoteloop s quote false).1 = true ↔ 0x3b ∉ rawtoken quote s := by
  induction s generalizing quote with
  | nil => simp [dequoteloop, shellsafe, rawtoken]
  | cons c s ih =>
    have hd := dequotebyte_eq quote c
    simp only [dequoteloop, rawtoken]
    by_cases hstop : quote = .none ∧ whitespace c = true
    · rw [if_pos hstop] at hd ⊢
      simp [hd, shellsafe]
    · rw [if_neg hstop] at hd ⊢
      by_cases hq : nextquote quote c = quote
      · rw [if_pos hq] at hd
        simp only [hd, hq, shellsafe_printed, Bool.and_eq_true, bne_iff_ne, ne_eq, ih, List.mem_cons, not_or]
        exact ⟨fun h => ⟨Ne.symm h.1, h.2⟩, fun h => ⟨Ne.symm h.1, h.2⟩⟩
      · rw [if_neg hq] at hd
        have hc : ¬ 0x3b = c := by intro he; subst he; exact absurd (nextquote_ne hq) (by decide)
        simp only [hd, List.nil_append, ih, List.mem_cons, hc, false_or]

/-- A plain byte of a safe argument. -/
theorem shellsafe_cons {c : UInt8} {t : S8} (hne : ∀ e t', c = 0x5c → t = e :: t' → False)
    (h : shellsafe (c :: t) = true) : c ≠ 0x5c ∧ whitespace c = false ∧ shellsafe t = true := by
  have hc : c ≠ 0x5c := by
    intro he
    subst he
    cases t with
    | nil => exact absurd h (by decide)
    | cons e t => exact hne e t rfl rfl
  rw [shellsafe_plain hc, Bool.and_eq_true, Bool.not_eq_true', shellspecial, Bool.or_eq_false_iff] at h
  exact ⟨hc, h.1.1, h.2⟩

/-- A shell reads a safe argument, ended by whitespace, as the word it stands for. -/
theorem shellword_safe {arg : S8} (h : shellsafe arg = true) {d : UInt8} (hd : whitespace d = true) (line : S8) :
    shellword (arg ++ d :: line) = (unescape arg, d :: line) := by
  induction arg using shellsafe.induct with
  | case1 c t ih =>
    rw [shellsafe] at h
    simp only [List.cons_append, shellword, unescape, ih h]
  | case2 c t hne ih =>
    obtain ⟨hc, hw, ht⟩ := shellsafe_cons hne h
    rw [List.cons_append, unescape_plain hc, shellword_plain hc, hw, ih ht]
    rfl
  | case3 =>
    rw [List.nil_append, shellword_plain (ne_of_whitespace hd (by decide)), hd]
    rfl

/-- The last word of a line. -/
theorem shellword_last {arg : S8} (h : shellsafe arg = true) : shellword arg = (unescape arg, []) := by
  induction arg using shellsafe.induct with
  | case1 c t ih =>
    rw [shellsafe] at h
    simp only [shellword, unescape, ih h]
  | case2 c t hne ih =>
    obtain ⟨hc, hw, ht⟩ := shellsafe_cons hne h
    rw [unescape_plain hc, shellword_plain hc, hw, ih ht]
    rfl
  | case3 => rfl

/-- A safe argument is a word of its line. -/
theorem shellwords_word {arg line : S8} (h : shellsafe arg = true) (hne : arg ≠ [])
    (hread : shellword (arg ++ line) = (unescape arg, line)) :
    shellwords (arg ++ line) = unescape arg :: shellwords line := by
  have hskip : (arg ++ line).dropWhile whitespace = arg ++ line := by
    cases arg with
    | nil => exact absurd rfl hne
    | cons c t =>
      refine List.dropWhile_cons_of_neg ?_
      by_cases hc : c = 0x5c
      · subst hc
        decide
      · rw [shellsafe_plain hc, Bool.and_eq_true, Bool.not_eq_true', shellspecial, Bool.or_eq_false_iff] at h
        rw [h.1.1]
        decide
  rw [shellwords, dif_neg (by rw [hskip]; exact List.append_ne_nil_of_left_ne_nil hne line), hskip, hread]

/-- A shell splits a line of safe arguments, one delimiter between any two, into the words
    they stand for. An empty one it would drop. -/
theorem shellwords_line {args : List S8} {d : UInt8} (hd : whitespace d = true)
    (h : ∀ arg ∈ args, shellsafe arg = true ∧ arg ≠ []) :
    shellwords ([d].intercalate args) = args.map unescape := by
  induction args with
  | nil => exact shellwords_nil
  | cons arg args ih =>
    obtain ⟨⟨hsafe, hne⟩, h⟩ := List.forall_mem_cons.mp h
    cases args with
    | nil =>
      have hword : shellwords (arg ++ []) = unescape arg :: shellwords [] :=
        shellwords_word hsafe hne (by rw [List.append_nil, shellword_last hsafe])
      rw [List.append_nil, shellwords_nil] at hword
      rw [List.intercalate_singleton, hword]
      rfl
    | cons arg' args =>
      have hskip (line : S8) : shellwords (d :: line) = shellwords line := by
        rw [shellwords, List.dropWhile_cons_of_pos hd, ← shellwords]
      rw [List.intercalate_cons_cons, List.append_assoc, List.singleton_append,
        shellwords_word hsafe hne (shellword_safe hsafe hd _), hskip, ih h, List.map_cons, List.map_cons, List.map_cons]

/-- An argument that `dequote` returns is safe to paste in a shell command line exactly
    when the token it was read from has no semicolon; then the shell reads it, and no
    more, as the word it stands for, and splits a line of such arguments into their words. -/
theorem dequote_safe_iff {s : S8} (hok : (dequote s).ok = true) :
    (shellsafe (dequote s).arg = true ↔ 0x3b ∉ rawtoken .none (s.dropWhile whitespace)) ∧
      (shellsafe (dequote s).arg = true → ∀ d line, whitespace d = true →
        shellword ((dequote s).arg ++ d :: line) = (unescape (dequote s).arg, d :: line)) ∧
      ∀ args d, whitespace d = true → (∀ arg ∈ args, shellsafe arg = true ∧ arg ≠ []) →
        shellwords ([d].intercalate args) = args.map unescape := by
  refine ⟨?_, fun h d line hd => shellword_safe h hd line, fun _ _ => shellwords_line⟩
  have harg : (dequote s).arg = (dequoteloop (s.dropWhile whitespace) .none false).1 := by
    by_cases hq : (dequoteloop (s.dropWhile whitespace) .none false).2.2 = .none
    · simp [dequote, hq]
    · simp [dequote, hq] at hok
  rw [harg]
  exact dequoteloop_safe _ _

theorem dequote_safe_iff_quoted :
    shellsafe (dequote (S "-DX='a&b' -lm")).arg = true :=
  (dequote_safe_iff (by decide)).1.mpr (by decide)

/-- A quoted semicolon is printed plain. -/
theorem semicolon_unsafe :
    (dequote (S "-DX='a;b'")).ok = true ∧ (dequote (S "-DX='a;b'")).arg = S "-DX=a;b" ∧
      shellsafe (dequote (S "-DX='a;b'")).arg = false := by
  decide

end GnuWindows.PkgConfig
