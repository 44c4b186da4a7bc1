/-
  GnuWindows.PkgConfig.ParseProofs — what `parsepackage` records.

  `entries` cuts a file into its assignments: a name, the delimiter and all that follows
  it; the next line starts where the reference text of the value ends. `assign` stores
  them one after another, and fails on the second value of a name.

  Proved:
  - `parsepackage_entries`: the parser is `assign` over `entries`.
  - `assignments_iff`: `entries` are the entries of the file, line by line.
  - `values_eq_refvalues_iff`: a parse that succeeds records the reference value of
    every variable and known field exactly when none of these ends in a backslash.
    A value that does loses it (`trailing_backslash_lost`).
-/
import GnuWindows.PkgConfig.ParseValue

namespace GnuWindows.PkgConfig

structure Entry where
  name : S8
  delim : UInt8
  /-- All that follows the delimiter, to the end of the file. -/
  body : S8
  deriving DecidableEq

/-- A variable or a known field: unknown fields are not stored. -/
def Entry.known (e : Entry) : Bool := e.delim == 0x3d || (fieldbyname e.name).isSome

theorem reftext_le (pre p : S8) : (reftext pre p).2.length ≤ p.length := by
  induction p generalizing pre with
  | nil => exact Nat.le_refl _
  | cons c p ih =>
    rw [reftext]
    split
    · exact Nat.le_refl _
    · exact Nat.le_succ_of_le (ih _)

theorem nextline_le (rest : S8) : (nextline rest).length ≤ rest.length := by
  unfold nextline
  split
  · exact skipline_le _
  · exact Nat.le_refl _

def entries (p : S8) : List Entry :=
  if _hp : p = [] then []
  else
    let q := skipspace p
    if q.head? == some 0x23 then entries (skipline q)
    else
      let line := scanline q
      if line.1 == 0x3d || line.1 == 0x3a then
        ⟨line.2.1, line.1, line.2.2⟩ :: entries (nextline (reftext [] line.2.2).2)
      else entries line.2.2
termination_by p.length
decreasing_by
  · exact skipline_skipspace_lt _hp
  · exact Nat.lt_of_le_of_lt (Nat.le_trans (nextline_le _) (reftext_le _ _)) (scanline_skipspace_lt _hp)
  · exact scanline_skipspace_lt _hp

/-- Store the entries in order, with the code's value for each. -/
def assign (pkg : Pkg) : List Entry → Parseresult
  | [] => .ok pkg
  | e :: es =>
    if e.delim == 0x3d then
      match pkg.env.find e.name with
      | some (some _) => .dupvariable e.name
      | _ => assign { pkg with env := pkg.env.bind e.name (some (scanfield e.body).2) } es
    else
      match fieldbyname e.name with
      | some i =>
        if (pkg.field i).isSome then .dupfield e.name
        else assign (pkg.setField i (some (scanfield e.body).2)) es
      | none => assign pkg es

/-! ## The parser assigns the entries -/

theorem scanfield_next (body : S8) : (scanfield body).1 = nextline (reftext [] body).2 := by
  rw [scanfield_pieces, reftext_pieces [] body ⟨by simp, by simp, by simp, by simp⟩]

theorem parseloop_entries (pkg : Pkg) (p : S8) : parseloop pkg p = assign pkg (entries p) := by
  induction p using entries.induct generalizing pkg with
  | case1 => simp [parseloop, entries, assign]
  | case2 p hp q hq ih => rw [parseloop, dif_neg hp, entries, dif_neg hp, if_pos hq, if_pos hq, ih]
  | case3 p hp q hq line hl ih =>
    rw [parseloop, dif_neg hp, if_neg hq, entries, dif_neg hp, if_neg hq]
    simp only
    rw [if_pos hl, assign]
    simp only [scanfield_next]
    by_cases h1 : line.1 == 0x3d
    · rw [if_pos h1, if_pos h1]
      rcases pkg.env.find line.2.1 with _ | _ | v
      · exact ih _
      · exact ih _
      · rfl
    · have h2 : line.1 == 0x3a := by simpa [h1] using hl
      rw [if_neg h1, if_pos h2, if_neg h1]
      cases fieldbyname line.2.1 with
      | none => exact ih _
      | some i =>
        simp only
        by_cases hs : (pkg.field i).isSome
        · rw [if_pos hs, if_pos hs]
        · rw [if_neg hs, if_neg hs]; exact ih _
  | case4 p hp q hq line hl ih =>
    simp only [Bool.not_eq_true, Bool.or_eq_false_iff] at hl
    rw [parseloop, dif_neg hp, if_neg hq, entries, dif_neg hp, if_neg hq]
    simp only
    rw [if_neg (by simp [q, line, hl.1]), if_neg (by simp [q, line, hl.2]), if_neg (by simp [q, line, hl.1, hl.2]), ih]

theorem parsepackage_entries (src : S8) :
    parsepackage src = assign { Pkg.zero with contents := some src } (entries src) := parseloop_entries _ _

/-! ## What is recorded -/

/-- The value recorded under an entry's name. -/
def recorded (pkg : Pkg) (e : Entry) : Option S8 :=
  if e.delim == 0x3d then (pkg.env.find e.name).join else (fieldbyname e.name).bind pkg.field

/-- One entry stored: no value that was there is lost, and its own is there. -/
theorem assign_cons {pkg pkg' : Pkg} {e : Entry} {es : List Entry} (h : assign pkg (e :: es) = .ok pkg') :
    ∃ p1, assign p1 es = .ok pkg' ∧
      (∀ n v, pkg.env.find n = some (some v) → p1.env.find n = some (some v)) ∧
      (∀ i v, pkg.field i = some v → p1.field i = some v) ∧
      (e.known = true → recorded p1 e = some (scanfield e.body).2) ∧
      (∀ n v, p1.env.find n = some (some v) → pkg.env.find n = some (some v) ∨ (e.delim = 0x3d ∧ e.name = n)) ∧
      ∀ i v, p1.field i = some v → pkg.field i = some v ∨ (e.delim ≠ 0x3d ∧ fieldbyname e.name = some i) := by
  rw [assign] at h
  by_cases hd : e.delim == 0x3d
  · rw [if_pos hd] at h
    split at h
    · cases h
    · rename_i hn
      refine ⟨_, h, ?_, fun i v hv => hv, ?_, ?_, fun i v hv => Or.inl hv⟩
      · intro n v hv
        rw [Env.find_bind, if_neg]
        · exact hv
        · intro he; subst he; exact hn _ hv
      · intro _
        simp [recorded, hd]
      · intro n v hv
        rw [Env.find_bind] at hv
        split at hv
        · rename_i he; exact Or.inr ⟨by simpa using hd, he.symm⟩
        · exact Or.inl hv
  · rw [if_neg hd] at h
    split at h
    · rename_i i hi
      split at h
      · cases h
      · rename_i hnone
        refine ⟨_, h, fun n v hv => hv, ?_, ?_, fun n v hv => Or.inl hv, ?_⟩
        · intro j v hv
          simp only [Pkg.setField]
          rw [if_neg]
          · exact hv
          · intro he; subst he; simp [hv] at hnone
        · intro _
          simp [recorded, hd, hi, Pkg.setField]
        · intro j v hv
          simp only [Pkg.setField] at hv
          split at hv
          · rename_i he; exact Or.inr ⟨by simpa using hd, by rw [hi, he]⟩
          · exact Or.inl hv
    · rename_i hi
      exact ⟨_, h, fun _ _ hv => hv, fun _ _ hv => hv, fun hk => by simp [Entry.known, hd, hi] at hk,
        fun _ _ hv => Or.inl hv, fun _ _ hv => Or.inl hv⟩

/-- What was recorded stays recorded. -/
theorem assign_keeps {pkg pkg' : Pkg} {es : List Entry} (h : assign pkg es = .ok pkg') :
    (∀ n v, pkg.env.find n = some (some v) → pkg'.env.find n = some (some v)) ∧
      ∀ i v, pkg.field i = some v → pkg'.field i = some v := by
  induction es generalizing pkg with
  | nil => cases h; exact ⟨fun _ _ hv => hv, fun _ _ hv => hv⟩
  | cons e es ih =>
    obtain ⟨p1, h1, henv, hfield, _⟩ := assign_cons h
    obtain ⟨ih1, ih2⟩ := ih h1
    exact ⟨fun n v hv => ih1 n v (henv n v hv), fun i v hv => ih2 i v (hfield i v hv)⟩

theorem recorded_keeps {pkg pkg' : Pkg} {es : List Entry} {e : Entry} {v : S8} (h : assign pkg es = .ok pkg')
    (hv : recorded pkg e = some v) : recorded pkg' e = some v := by
  obtain ⟨h1, h2⟩ := assign_keeps h
  unfold recorded at hv ⊢
  split at hv
  · rename_i hd
    rw [if_pos hd]
    rw [Option.join_eq_some_iff] at hv ⊢
    exact h1 _ _ hv
  · rename_i hd
    rw [if_neg hd]
    rw [Option.bind_eq_some_iff] at hv ⊢
    obtain ⟨i, hi, hf⟩ := hv
    exact ⟨i, hi, h2 i v hf⟩

/-- Every known entry is recorded with the code's value, and nothing else is recorded. -/
theorem assign_records {pkg pkg' : Pkg} {es : List Entry} (h : assign pkg es = .ok pkg') :
    (∀ e ∈ es, e.known = true → recorded pkg' e = some (scanfield e.body).2) ∧
      (∀ n v, pkg'.env.find n = some (some v) →
        pkg.env.find n = some (some v) ∨ ∃ e ∈ es, e.delim = 0x3d ∧ e.name = n) ∧
      ∀ i v, pkg'.field i = some v → pkg.field i = some v ∨ ∃ e ∈ es, e.delim ≠ 0x3d ∧ fieldbyname e.name = some i := by
  induction es generalizing pkg with
  | nil => cases h; exact ⟨by simp, fun _ _ hv => Or.inl hv, fun _ _ hv => Or.inl hv⟩
  | cons e es ih =>
    obtain ⟨p1, h1, _, _, hself, henv, hfield⟩ := assign_cons h
    obtain ⟨ih1, ih2, ih3⟩ := ih h1
    refine ⟨?_, ?_, ?_⟩
    · intro x hx hk
      rcases List.mem_cons.mp hx with rfl | hx
      · exact recorded_keeps h1 (hself hk)
      · exact ih1 x hx hk
    · intro n v hv
      rcases ih2 n v hv with hv | ⟨x, hx, hn⟩
      · rcases henv n v hv with hv | hn
        · exact Or.inl hv
        · exact Or.inr ⟨e, List.mem_cons_self, hn⟩
      · exact Or.inr ⟨x, List.mem_cons_of_mem _ hx, hn⟩
    · intro i v hv
      rcases ih3 i v hv with hv | ⟨x, hx, hn⟩
      · rcases hfield i v hv with hv | hn
        · exact Or.inl hv
        · exact Or.inr ⟨e, List.mem_cons_self, hn⟩
      · exact Or.inr ⟨x, List.mem_cons_of_mem _ hx, hn⟩

/-! ## Lines -/

/-- Neither a newline nor a delimiter. -/
def namebyte (c : UInt8) : Bool := c != 0x0a && c != 0x3d && c != 0x3a

theorem skipspace_idem (p : S8) : skipspace (skipspace p) = skipspace p := List.dropWhile_idempotent ..

theorem skipspace_append {blank : S8} (h : ∀ c ∈ blank, whitespace c = true) (p : S8) :
    skipspace (blank ++ p) = skipspace p := List.dropWhile_append_of_pos h

/-- Space in front of a line is nothing. -/
theorem entries_skipspace (p : S8) : entries (skipspace p) = entries p := by
  by_cases hp : p = []
  · rw [hp]
    rfl
  · rw [entries.eq_def p, dif_neg hp]
    by_cases hq : skipspace p = []
    · have hnil : entries [] = [] := by rw [entries, dif_pos rfl]
      simp [hq, hnil, scanline, scanname]
    · rw [entries, dif_neg hq, skipspace_idem]

/-- The end of a line: a newline, or the end of the file. -/
def Lineend (rest : S8) : Prop := ∀ c ∈ rest.head?, c = 0x0a

theorem entries_skipline {rest : S8} (h : Lineend rest) : entries (skipline rest) = entries rest := by
  cases rest with
  | nil => rfl
  | cons c rest =>
    obtain rfl := h c rfl
    have hskip : skipspace (0x0a :: rest) = skipspace rest := List.dropWhile_cons_of_pos (by decide)
    rw [skipline, if_pos (by decide), ← entries_skipspace rest, ← hskip, entries_skipspace]

theorem skipline_text {text : S8} (h : 0x0a ∉ text) (rest : S8) : skipline (text ++ rest) = skipline rest := by
  induction text with
  | nil => rfl
  | cons c text ih =>
    obtain ⟨hc, h⟩ := not_or.mp (fun hm => h (List.mem_cons.mpr hm))
    rw [List.cons_append, skipline, if_neg (by simpa using Ne.symm hc), ih h]

theorem entries_hash {text rest : S8} (ht : 0x0a ∉ text) (hr : Lineend rest) :
    entries (0x23 :: text ++ rest) = entries rest := by
  have hskip : skipspace (0x23 :: text ++ rest) = 0x23 :: text ++ rest := List.dropWhile_cons_of_neg (by decide)
  have hline : skipline (0x23 :: text ++ rest) = skipline rest :=
    skipline_text (List.not_mem_cons_of_ne_of_not_mem (by decide) ht) rest
  rw [entries, dif_neg (by simp), hskip, if_pos (by simp), hline, entries_skipline hr]

/-- A comment is nothing, whatever is in it. -/
theorem entries_comment {blank text rest : S8} (hb : ∀ c ∈ blank, whitespace c = true) (ht : 0x0a ∉ text)
    (hr : Lineend rest) : entries (blank ++ 0x23 :: text ++ rest) = entries rest := by
  rw [List.append_assoc, ← entries_skipspace, skipspace_append hb, entries_skipspace, entries_hash ht hr]

/-- The name's scan ends at the delimiter; `fin` is kept only by a blank name. -/
theorem scanname_text {name : S8} (h : ∀ c ∈ name, namebyte c = true) {d : UInt8} (hd : namebyte d = false)
    (body fin : S8) (c : UInt8) :
    scanname (name ++ d :: body) fin c =
      (d, body, if name.rdropWhile whitespace = [] then fin
        else (name ++ d :: body).drop (name.rdropWhile whitespace).length) := by
  induction name generalizing fin c with
  | nil =>
    have hstop : (d == 0x0a || d == 0x3d || d == 0x3a) = true := by simpa [namebyte, or_assoc, imp_iff_not_or] using hd
    rw [List.nil_append, scanname, if_pos hstop]
    simp
  | cons b name ih =>
    obtain ⟨hb, h⟩ := List.forall_mem_cons.mp h
    have hgo : ¬ (b == 0x0a || b == 0x3d || b == 0x3a) = true := by simpa [namebyte, and_assoc] using hb
    rw [List.cons_append, scanname, if_neg hgo, ih h, rdropWhile_cons]
    by_cases hn : name.rdropWhile whitespace = []
    · by_cases hw : whitespace b = true
      · simp [hn, hw]
      · simp [hn, hw]
    · simp [hn]

/-- The line up to its delimiter, and its name without the space behind it. -/
theorem scanline_text {name : S8} (h : ∀ c ∈ name, namebyte c = true) {d : UInt8} (hd : namebyte d = false)
    (body : S8) :
    scanline (name ++ d :: body) = (d, name.rdropWhile whitespace, body) := by
  have hpre : name.rdropWhile whitespace <+: name ++ d :: body :=
    (List.rdropWhile_prefix _ _).trans (List.prefix_append _ _)
  have hspan : span (name ++ d :: body) (if name.rdropWhile whitespace = [] then name ++ d :: body
      else (name ++ d :: body).drop (name.rdropWhile whitespace).length) = name.rdropWhile whitespace := by
    have hle := hpre.length_le
    unfold span
    split
    · next hnil => rw [Nat.sub_self, List.take_zero, hnil]
    · rw [List.length_drop, Nat.sub_sub_self hle, ← List.prefix_iff_eq_take.mp hpre]
  simp only [scanline, scanname_text h hd, hspan]

/-- To the end of the file without a delimiter. -/
theorem scanline_last {name : S8} (h : ∀ c ∈ name, namebyte c = true) :
    namebyte (scanline name).1 = true ∧ (scanline name).2.2 = [] := by
  have hscan : ∀ fin c, namebyte c = true →
      namebyte (scanname name fin c).1 = true ∧ (scanname name fin c).2.1 = [] := by
    induction name with
    | nil => exact fun fin c hc => ⟨hc, rfl⟩
    | cons b name ih =>
      intro fin c hc
      obtain ⟨hb, h⟩ := List.forall_mem_cons.mp h
      have hgo : ¬ (b == 0x0a || b == 0x3d || b == 0x3a) = true := by simpa [namebyte, and_assoc] using hb
      rw [scanname, if_neg hgo]
      exact ih h _ _ hb
  exact hscan name 0 (by decide)

theorem delim_of_namebyte {d : UInt8} (h : namebyte d = true) : (d == 0x3d || d == 0x3a) = false := by
  simp [namebyte] at h
  simp [h]

/-- A line without a delimiter is nothing. -/
theorem entries_nodelim {line rest : S8} (h : ∀ c ∈ line, namebyte c = true) (hr : Lineend rest) :
    entries (line ++ rest) = entries rest := by
  have hsplit : line = line.takeWhile whitespace ++ line.dropWhile whitespace :=
    (List.takeWhile_append_dropWhile ..).symm
  have hblank : ∀ c ∈ line.takeWhile whitespace, whitespace c = true := fun c hc => List.mem_takeWhile_imp hc
  rw [hsplit, List.append_assoc, ← entries_skipspace, skipspace_append hblank, entries_skipspace]
  have h : ∀ c ∈ line.dropWhile whitespace, namebyte c = true := fun c hc => h c ((List.dropWhile_sublist _).mem hc)
  have hhead : ∀ c ∈ (line.dropWhile whitespace).head?, whitespace c = false := by
    intro c hc
    have := List.head?_dropWhile_not whitespace line
    rw [Option.mem_def.mp hc] at this
    simpa using this
  generalize line.dropWhile whitespace = text at h hhead
  cases text with
  | nil => rfl
  | cons c text =>
    have hskip : skipspace (c :: text ++ rest) = c :: text ++ rest :=
      List.dropWhile_cons_of_neg (by rw [hhead c rfl]; decide)
    by_cases hc : c = 0x23
    · subst hc
      refine entries_hash (fun hm => ?_) hr
      exact absurd (h 0x0a (List.mem_cons_of_mem _ hm)) (by decide)
    · rw [entries, dif_neg (by simp), hskip, if_neg (by simpa using hc)]
      cases rest with
      | nil =>
        obtain ⟨hname, hrest⟩ := scanline_last h
        simp only [List.append_nil, delim_of_namebyte hname, hrest, Bool.false_eq_true, if_false]
      | cons d rest =>
        obtain rfl := hr d rfl
        simp only [scanline_text h (show namebyte 0x0a = false by decide)]
        rw [if_neg (by decide), ← entries_skipline hr]
        rfl

/-- A line with a delimiter is an entry, and the next line begins where its value ends. -/
theorem entries_named {blank name : S8} (hb : ∀ c ∈ blank, whitespace c = true) (h : ∀ c ∈ name, namebyte c = true)
    (hhead : ∀ c ∈ name.head?, whitespace c = false ∧ c ≠ 0x23) {d : UInt8} (hd : d = 0x3d ∨ d = 0x3a) (body : S8) :
    entries (blank ++ name ++ d :: body) =
      ⟨name.rdropWhile whitespace, d, body⟩ :: entries (nextline (reftext [] body).2) := by
  have hstop : namebyte d = false := by rcases hd with rfl | rfl <;> decide
  have hcons : ∃ c text, name ++ d :: body = c :: text ∧ whitespace c = false ∧ c ≠ 0x23 := by
    cases name with
    | nil => exact ⟨d, body, rfl, by rcases hd with rfl | rfl <;> decide⟩
    | cons c name => exact ⟨c, name ++ d :: body, rfl, hhead c rfl⟩
  obtain ⟨c, text, hcons, hw, hc⟩ := hcons
  have hskip : skipspace (name ++ d :: body) = name ++ d :: body := by
    rw [hcons]
    exact List.dropWhile_cons_of_neg (by rw [hw]; decide)
  rw [List.append_assoc, ← entries_skipspace, skipspace_append hb, entries_skipspace, entries, dif_neg (by simp), hskip,
    if_neg (by rw [hcons]; simpa using hc)]
  simp only [scanline_text h hstop]
  rw [if_pos (by rcases hd with rfl | rfl <;> decide)]

theorem entries_assignment {name : S8} (h : ∀ c ∈ name, namebyte c = true)
    (hhead : ∀ c ∈ name.head?, whitespace c = false ∧ c ≠ 0x23) {d : UInt8} (hd : d = 0x3d ∨ d = 0x3a) (body : S8) :
    entries (name ++ d :: body) = ⟨name.rdropWhile whitespace, d, body⟩ :: entries (nextline (reftext [] body).2) :=
  entries_named (List.forall_mem_nil _) h hhead hd body

/-- The entries of a file, line by line: those of the lines with a delimiter, each from its
    name to the text that its value is taken from. -/
inductive Assignments : S8 → List Entry → Prop
  | nil : Assignments [] []
  | blank {c : UInt8} {src : S8} {es : List Entry} : whitespace c = true → Assignments src es →
      Assignments (c :: src) es
  | comment {text rest : S8} {es : List Entry} : 0x0a ∉ text → Lineend rest → Assignments rest es →
      Assignments (0x23 :: text ++ rest) es
  | nodelim {line rest : S8} {es : List Entry} : (∀ c ∈ line, namebyte c = true) → Lineend rest → Assignments rest es →
      Assignments (line ++ rest) es
  | named {name body : S8} {d : UInt8} {es : List Entry} : (∀ c ∈ name, namebyte c = true) →
      (∀ c ∈ name.head?, whitespace c = false ∧ c ≠ 0x23) → d = 0x3d ∨ d = 0x3a →
      Assignments (nextline (reftext [] body).2) es →
      Assignments (name ++ d :: body) (⟨name.rdropWhile whitespace, d, body⟩ :: es)

namespace Assignments

variable {src : S8} {es : List Entry}

theorem unique (h : Assignments src es) : es = entries src := by
  induction h with
  | nil => rw [entries, dif_pos rfl]
  | @blank c src es hc h ih =>
    have hskip : skipspace (c :: src) = skipspace src := List.dropWhile_cons_of_pos hc
    rw [ih, ← entries_skipspace (c :: src), hskip, entries_skipspace]
  | comment ht hr h ih => rw [ih, entries_hash ht hr]
  | nodelim hline hr h ih => rw [ih, entries_nodelim hline hr]
  | @named name body d es hname hhead hd h ih =>
    rw [ih, entries_assignment hname hhead hd]

/-- The bytes before the first one without the property. -/
theorem split_at (p : UInt8 → Bool) (s : S8) :
    (∀ c ∈ s, p c = true) ∨ ∃ u d v, s = u ++ d :: v ∧ (∀ c ∈ u, p c = true) ∧ p d = false := by
  have hsplit : s.takeWhile p ++ s.dropWhile p = s := List.takeWhile_append_dropWhile
  have hbefore : ∀ c ∈ s.takeWhile p, p c = true := fun c hc => List.mem_takeWhile_imp hc
  cases hrest : s.dropWhile p with
  | nil =>
    rw [hrest, List.append_nil] at hsplit
    exact .inl (hsplit ▸ hbefore)
  | cons d v =>
    have hstop := List.head?_dropWhile_not p s
    rw [hrest] at hstop
    exact .inr ⟨s.takeWhile p, d, v, hrest ▸ hsplit.symm, hbefore, by simpa using hstop⟩

/-- A comment, and what is left of the file. -/
theorem split_comment (s : S8) : ∃ text rest, s = text ++ rest ∧ 0x0a ∉ text ∧ Lineend rest := by
  rcases split_at (· != 0x0a) s with h | ⟨text, d, rest, rfl, htext, hd⟩
  · exact ⟨s, [], (List.append_nil s).symm, fun hm => by simpa using h _ hm, fun _ hc => by cases hc⟩
  · obtain rfl : d = 0x0a := by simpa using hd
    exact ⟨text, 0x0a :: rest, rfl, fun hm => by simpa using htext _ hm, fun _ hc => (Option.some.inj hc).symm⟩

/-- A line that is neither blank nor a comment, when what is left of a shorter file is known. -/
theorem of_line {c : UInt8} {src : S8} (hc : ¬ whitespace c = true) (hhash : c ≠ 0x23)
    (ih : ∀ rest : S8, rest.length < (c :: src).length → Assignments rest (entries rest)) :
    Assignments (c :: src) (entries (c :: src)) := by
  rcases split_at namebyte (c :: src) with hline | ⟨name, d, body, hsrc, hname, hd⟩
  · -- the last line, without a delimiter
    have hrest : Lineend [] := fun _ hc => by cases hc
    have hentries := entries_nodelim hline hrest
    have hlast := nodelim hline hrest (ih [] (Nat.succ_pos _))
    rwa [← hentries, List.append_nil] at hlast
  have hlen : (c :: src).length = name.length + (body.length + 1) := by
    rw [hsrc, List.length_append, List.length_cons]
  by_cases hline : d = 0x0a
  · -- the line ends before a delimiter
    subst hline
    have hrest : Lineend (0x0a :: body) := fun _ hc => (Option.some.inj hc).symm
    have hpos : 0 < name.length := by
      refine List.length_pos_iff.mpr ?_
      rintro rfl
      obtain ⟨rfl, -⟩ := List.cons.inj hsrc
      exact hc (by decide)
    rw [hsrc, entries_nodelim hname hrest]
    exact .nodelim hname hrest (ih _ (by rw [hlen, List.length_cons]; omega))
  · have hdelim : d = 0x3d ∨ d = 0x3a := by
      simp only [namebyte, Bool.and_eq_false_iff, bne_eq_false_iff_eq] at hd
      tauto
    have hhead : ∀ b ∈ name.head?, whitespace b = false ∧ b ≠ 0x23 := by
      intro b hb
      cases name with
      | nil => cases hb
      | cons b' name =>
        obtain rfl := Option.some.inj hb
        obtain ⟨rfl, -⟩ := List.cons.inj hsrc
        exact ⟨by simpa using hc, hhash⟩
    have hle := Nat.le_trans (nextline_le (reftext [] body).2) (reftext_le [] body)
    rw [hsrc, entries_assignment hname hhead hdelim]
    exact .named hname hhead hdelim (ih _ (by omega))

/-- Every file has its lines. -/
theorem of_entries (src : S8) : Assignments src (entries src) := by
  induction hn : src.length using Nat.strong_induction_on generalizing src with
  | _ n ih =>
    subst hn
    cases src with
    | nil =>
      rw [entries, dif_pos rfl]
      exact .nil
    | cons c src =>
      by_cases hc : whitespace c = true
      · have hskip : skipspace (c :: src) = skipspace src := List.dropWhile_cons_of_pos hc
        rw [← entries_skipspace, hskip, entries_skipspace]
        exact .blank hc (ih _ (Nat.lt_succ_self _) src rfl)
      by_cases hhash : c = 0x23
      · subst hhash
        obtain ⟨text, rest, rfl, htext, hrest⟩ := split_comment src
        have hentries : entries (0x23 :: (text ++ rest)) = entries rest := entries_hash htext hrest
        rw [hentries]
        exact .comment htext hrest (ih _ (by rw [List.length_cons, List.length_append]; omega) rest rfl)
      · exact of_line hc hhash fun rest hrest => ih _ hrest rest rfl

end Assignments

/-- `entries` are the entries of the file. -/
theorem assignments_iff {src : S8} {es : List Entry} : Assignments src es ↔ es = entries src :=
  ⟨Assignments.unique, fun h => h ▸ .of_entries src⟩

/-! ## Reference values -/

/-- Each variable and known field has the reference value of its entry. -/
def ReferenceValues (src : S8) (pkg : Pkg) : Prop :=
  ∀ e ∈ entries src, e.known = true → recorded pkg e = some (refvalue e.body)

instance (src : S8) (pkg : Pkg) : Decidable (ReferenceValues src pkg) :=
  inferInstanceAs (Decidable (∀ e ∈ entries src, e.known = true → recorded pkg e = some (refvalue e.body)))

/-- A parse that succeeds records the entries of the file, line by line, and no more, and
    with their reference values exactly when none of those ends in a backslash. -/
theorem values_eq_refvalues_iff {src : S8} {pkg : Pkg} (h : parsepackage src = .ok pkg) :
    (∀ es, Assignments src es ↔ es = entries src) ∧
    ((∀ n v, pkg.env.find n = some (some v) → ∃ e ∈ entries src, e.delim = 0x3d ∧ e.name = n) ∧
      ∀ i v, pkg.field i = some v → ∃ e ∈ entries src, e.delim ≠ 0x3d ∧ fieldbyname e.name = some i) ∧
    (ReferenceValues src pkg ↔ ∀ e ∈ entries src, e.known = true → (refvalue e.body).getLast? ≠ some 0x5c) := by
  rw [parsepackage_entries] at h
  obtain ⟨h1, h2, h3⟩ := assign_records h
  refine ⟨fun _ => assignments_iff, ⟨fun n v hv => (h2 n v hv).resolve_left (by simp [Pkg.zero]),
    fun i v hv => (h3 i v hv).resolve_left (by simp [Pkg.zero])⟩, ?_⟩
  constructor
  · intro hr e he hk
    have := hr e he hk
    rw [h1 e he hk, Option.some.injEq] at this
    exact (value_eq_refvalue_iff e.body).mp this
  · intro hb e he hk
    rw [h1 e he hk, (value_eq_refvalue_iff e.body).mpr (hb e he hk)]

theorem values_eq_refvalues_iff_continued :
    ∃ pkg, parsepackage (S "p=a\\\n b # c\nVersion: 1\n") = .ok pkg ∧
      ReferenceValues (S "p=a\\\n b # c\nVersion: 1\n") pkg := by
  obtain ⟨pkg, h⟩ := Option.isSome_iff_exists.mp
    (show (parsepackage (S "p=a\\\n b # c\nVersion: 1\n")).ok?.isSome = true by decide +kernel)
  have h := Parseresult.ok?_eq_some h
  exact ⟨pkg, h, (values_eq_refvalues_iff h).2.2.mpr (by decide +kernel)⟩

/-- A trailing backslash that escapes nothing is not part of the value. -/
theorem trailing_backslash_lost :
    ∃ pkg, parsepackage (S "p=C:\\") = .ok pkg ∧ ¬ ReferenceValues (S "p=C:\\") pkg := by
  have hc : (parsepackage (S "p=C:\\")).ok?.any (fun pkg => !decide (ReferenceValues (S "p=C:\\") pkg)) = true := by
    decide +kernel
  obtain ⟨pkg, h, hb⟩ := (Option.any_eq_true _ _).mp hc
  exact ⟨pkg, Parseresult.ok?_eq_some h, by simpa using hb⟩

end GnuWindows.PkgConfig
