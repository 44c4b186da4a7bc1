/-
  GnuWindows.PkgConfig.Splitter — the reference splitter for fields.

  A field is cut into words at whitespace outside quotes (`refwords`). Bytes in single
  quotes are literal; in double quotes a backslash escapes a double quote or a backslash;
  outside quotes a backslash is literal. Quoted whitespace reads as a space, an encoded
  byte as what it encodes.

  `splitword false` is the splitter without the escapes.

  Proved:
  - `splitword_plain`: with no backslash to escape the two splitters are one.
  - `splitword_agree`: where they read the same word from the same bytes, no backslash
    escaped in it.
-/
import GnuWindows.PkgConfig.Dequote

namespace GnuWindows.PkgConfig

/-! ## The reference splitter -/

/-- A byte in quotes. -/
def quotedbyte (c : UInt8) : UInt8 := if whitespace c then 0x20 else pathdecode c

/-- In double quotes: a backslash before a double quote or a backslash. -/
def escapeat (c : UInt8) (s : S8) : Bool := c == 0x5c && (s.head? == some 0x22 || s.head? == some 0x5c)

/-- One step of a word: what it reads, the quote and the bytes after it; `none` at the
    whitespace that ends the word. `escapes`: whether a backslash in double quotes may
    escape. -/
def splitstep (escapes : Bool) (quote : Quote) (c : UInt8) (s : S8) : Option (S8 × Quote × S8) :=
  match quote with
  | .none =>
    if whitespace c = true then none
    else if c = 0x27 then some ([], .single, s)
    else if c = 0x22 then some ([], .double, s)
    else some ([pathdecode c], .none, s)
  | .single => if c = 0x27 then some ([], .none, s) else some ([quotedbyte c], .single, s)
  | .double =>
    if c = 0x22 then some ([], .none, s)
    else if (escapes && escapeat c s) = true then some (s.take 1, .double, s.tail)
    else some ([quotedbyte c], .double, s)

theorem splitstep_none {escapes : Bool} {quote : Quote} {c : UInt8} {s : S8} (h : splitstep escapes quote c s = none) :
    quote = .none ∧ whitespace c = true := by
  cases quote with
  | none =>
    refine ⟨rfl, ?_⟩
    by_contra hw
    simp only [splitstep, if_neg hw] at h
    split at h
    · cases h
    · split at h <;> cases h
  | single => simp only [splitstep] at h; split at h <;> cases h
  | double =>
    simp only [splitstep] at h
    split at h
    · cases h
    · split at h <;> cases h

theorem splitstep_suffix {escapes : Bool} {quote : Quote} {c : UInt8} {s : S8} {r : S8 × Quote × S8}
    (h : splitstep escapes quote c s = some r) : r.2.2 <:+ s := by
  cases quote with
  | none =>
    simp only [splitstep] at h
    split at h
    · cases h
    · split at h
      · cases h; exact List.suffix_refl _
      · split at h <;> cases h <;> exact List.suffix_refl _
  | single =>
    simp only [splitstep] at h
    split at h <;> cases h <;> exact List.suffix_refl _
  | double =>
    simp only [splitstep] at h
    split at h
    · cases h; exact List.suffix_refl _
    · split at h
      · cases h; exact List.tail_suffix _
      · cases h; exact List.suffix_refl _

/-- A step to the end of the field, outside quotes. -/
theorem splitstep_last {escapes : Bool} {quote : Quote} {c : UInt8} {s : S8} {r : S8 × Quote × S8}
    (h : splitstep escapes quote c s = some r) (hr : r.2.2 = []) (hq : r.2.1 = .none) :
    s = [] ∧ whitespace c = false := by
  cases quote with
  | none =>
    simp only [splitstep] at h
    split at h
    · cases h
    · rename_i hw
      refine ⟨?_, by simpa using hw⟩
      split at h
      · cases h; cases hq
      · split at h
        · cases h; cases hq
        · cases h; exact hr
  | single =>
    simp only [splitstep] at h
    split at h
    · rename_i hc; cases h; exact ⟨hr, by rw [hc]; decide⟩
    · cases h; cases hq
  | double =>
    simp only [splitstep] at h
    split at h
    · rename_i hc; cases h; exact ⟨hr, by rw [hc]; decide⟩
    · split at h <;> cases h <;> cases hq

/-- The word at the beginning and the bytes after it; `none` when a quote is not closed. -/
def splitword (escapes : Bool) (quote : Quote) : S8 → Option (S8 × S8)
  | [] => if quote = .none then some ([], []) else none
  | c :: s =>
    match _h : splitstep escapes quote c s with
    | none => some ([], c :: s)
    | some r => (splitword escapes r.2.1 r.2.2).map fun w => (r.1 ++ w.1, w.2)
termination_by s => s.length
decreasing_by exact Nat.lt_succ_of_le (splitstep_suffix _h).length_le

theorem splitword_stop {escapes : Bool} {quote : Quote} {c : UInt8} {s : S8} (h : splitstep escapes quote c s = none) :
    splitword escapes quote (c :: s) = some ([], c :: s) := by
  rw [splitword]; split <;> simp_all

theorem splitword_step {escapes : Bool} {quote : Quote} {c : UInt8} {s : S8} {r : S8 × Quote × S8}
    (h : splitstep escapes quote c s = some r) :
    splitword escapes quote (c :: s) = (splitword escapes r.2.1 r.2.2).map fun w => (r.1 ++ w.1, w.2) := by
  rw [splitword]; split <;> simp_all

/-- What holds at the end of a word, and of a word when it holds after its first step,
    holds of every word. -/
theorem splitword_induction {escapes : Bool} {C : Quote → S8 → S8 × S8 → Prop} (hnil : C .none [] ([], []))
    (hstop : ∀ c s, whitespace c = true → C .none (c :: s) ([], c :: s))
    (hstep : ∀ quote c s r w, splitstep escapes quote c s = some r → splitword escapes r.2.1 r.2.2 = some w →
      C r.2.1 r.2.2 w → C quote (c :: s) (r.1 ++ w.1, w.2))
    {quote : Quote} {s : S8} {w : S8 × S8} (h : splitword escapes quote s = some w) : C quote s w := by
  induction quote, s using splitword.induct escapes generalizing w with
  | case1 => rw [splitword, if_pos rfl] at h; cases h; exact hnil
  | case2 quote hq => rw [splitword, if_neg hq] at h; cases h
  | case3 quote c s hs =>
    rw [splitword_stop hs] at h
    cases h
    obtain ⟨rfl, hw⟩ := splitstep_none hs
    exact hstop c s hw
  | case4 quote c s r hs ih =>
    rw [splitword_step hs, Option.map_eq_some_iff] at h
    obtain ⟨w', hw, rfl⟩ := h
    exact hstep quote c s r w' hs hw (ih hw)

theorem splitword_suffix {escapes : Bool} {quote : Quote} {s : S8} {w : S8 × S8}
    (h : splitword escapes quote s = some w) : w.2 <:+ s := by
  refine splitword_induction (C := fun _ s w => w.2 <:+ s) (List.suffix_refl _) (fun _ _ _ => List.suffix_refl _) ?_ h
  intro quote c s r w hs _ ih
  exact (ih.trans (splitstep_suffix hs)).trans (List.suffix_cons _ _)

/-- A word that does not begin at whitespace takes something off the field. -/
theorem splitword_lt {escapes : Bool} {quote : Quote} {c : UInt8} {s : S8} {w : S8 × S8} (hc : whitespace c = false)
    (h : splitword escapes quote (c :: s) = some w) : w.2.length ≤ s.length := by
  cases hs : splitstep escapes quote c s with
  | none => rw [(splitstep_none hs).2] at hc; cases hc
  | some r =>
    rw [splitword_step hs, Option.map_eq_some_iff] at h
    obtain ⟨w', hw, rfl⟩ := h
    exact ((splitword_suffix hw).trans (splitstep_suffix hs)).length_le

theorem dropWhile_head {s t : S8} {c : UInt8} (h : s.dropWhile whitespace = c :: t) : whitespace c = false := by
  have := List.head?_dropWhile_not whitespace s
  rw [h] at this
  simpa using this

/-- The words of a field; `none` when its quotes are not balanced. -/
def refwords (s : S8) : Option (List S8) :=
  match _hs : s.dropWhile whitespace with
  | [] => some []
  | c :: t =>
    match _h : splitword true .none (c :: t) with
    | none => none
    | some w => (refwords w.2).map (w.1 :: ·)
termination_by s.length
decreasing_by
  have h1 := (List.dropWhile_sublist whitespace (l := s)).length_le
  have h2 := splitword_lt (dropWhile_head _hs) _h
  rw [_hs, List.length_cons] at h1
  omega

theorem refwords_blank {s : S8} (h : s.dropWhile whitespace = []) : refwords s = some [] := by
  rw [refwords]; split <;> simp_all

theorem refwords_word {s t : S8} {c : UInt8} (h : s.dropWhile whitespace = c :: t) :
    refwords s = (splitword true .none (c :: t)).bind fun w => (refwords w.2).map (w.1 :: ·) := by
  rw [refwords]
  split
  · simp_all
  · rename_i c' t' h'
    rw [h] at h'
    cases h'
    split <;> simp_all

theorem getLast?_suffix {t s : S8} (h : t <:+ s) (ht : t ≠ []) : s.getLast? = t.getLast? := by
  obtain ⟨u, rfl⟩ := h
  obtain ⟨c, hc⟩ := Option.isSome_iff_exists.mp (List.getLast?_isSome.mpr ht)
  rw [List.getLast?_append, hc, Option.some_or]

/-- A word that takes all of a field does not end in whitespace. -/
theorem splitword_last {escapes : Bool} {quote : Quote} {s : S8} {w : S8 × S8}
    (h : splitword escapes quote s = some w) : w.2 = [] → ∀ c ∈ s.getLast?, whitespace c = false := by
  refine splitword_induction (C := fun _ s w => w.2 = [] → ∀ c ∈ s.getLast?, whitespace c = false) ?_ ?_ ?_ h
  · simp
  · simp
  · intro quote c s r w hs hw ih hnil
    by_cases hr : r.2.2 = []
    · -- the last step: the quote is closed after it
      rw [hr] at hw
      have hq : r.2.1 = .none := by
        by_contra hq
        rw [splitword, if_neg hq] at hw
        cases hw
      have hc : s = [] ∧ whitespace c = false := splitstep_last hs hr hq
      rw [hc.1]
      simpa using hc.2
    · rw [getLast?_suffix ((splitstep_suffix hs).trans (List.suffix_cons _ _)) hr]
      exact ih hnil

/-! ## Without escapes -/

/-- The quote after a byte, when no backslash escapes. -/
def nextquote (quote : Quote) (c : UInt8) : Quote :=
  match quote with
  | .none => if c = 0x27 then .single else if c = 0x22 then .double else .none
  | .single => if c = 0x27 then .none else .single
  | .double => if c = 0x22 then .none else .double

/-- A backslash escapes somewhere in double quotes. -/
def hasescape : Quote → S8 → Bool
  | _, [] => false
  | quote, c :: s => (quote == .double && escapeat c s) || hasescape (nextquote quote c) s

theorem splitstep_false {quote : Quote} {c : UInt8} {s : S8} {r : S8 × Quote × S8}
    (h : splitstep false quote c s = some r) : r.2 = (nextquote quote c, s) ∧ r.1.length ≤ 1 := by
  cases quote with
  | none =>
    simp only [splitstep] at h
    split at h
    · cases h
    · split at h
      · rename_i hq; cases h; simp [nextquote, hq]
      · split at h
        · rename_i hq; cases h; simp [nextquote, hq]
        · rename_i h1 h2; cases h; simp [nextquote, h1, h2]
  | single =>
    simp only [splitstep] at h
    split at h <;> rename_i hq <;> cases h <;> simp [nextquote, hq]
  | double =>
    simp only [splitstep, Bool.false_and, Bool.false_eq_true, if_false] at h
    split at h <;> rename_i hq <;> cases h <;> simp [nextquote, hq]

theorem splitstep_plain {quote : Quote} {c : UInt8} {s : S8} (h : (quote == .double && escapeat c s) = false) :
    splitstep true quote c s = splitstep false quote c s := by
  cases quote with
  | none => rfl
  | single => rfl
  | double =>
    have : escapeat c s = false := by simpa using h
    simp [splitstep, this]

/-- Where a backslash escapes, the two splitters read different bytes. -/
theorem splitstep_escape {quote : Quote} {c : UInt8} {s : S8} (h : (quote == .double && escapeat c s) = true) :
    quote = .double ∧ c = 0x5c ∧ ∃ d t, s = d :: t ∧ (d = 0x22 ∨ d = 0x5c) ∧
      splitstep true .double c s = some ([d], .double, t) ∧
      splitstep false .double c s = some ([0x5c], .double, d :: t) := by
  rw [Bool.and_eq_true, beq_iff_eq] at h
  obtain ⟨rfl, he⟩ := h
  have he' := he
  simp only [escapeat, Bool.and_eq_true, beq_iff_eq, Bool.or_eq_true] at he'
  obtain ⟨rfl, hd⟩ := he'
  cases s with
  | nil => simp at hd
  | cons d t =>
    refine ⟨rfl, rfl, d, t, rfl, by simpa using hd, ?_, ?_⟩
    · simp [splitstep, he]
    · simp only [splitstep, Bool.false_and]; rfl

theorem splitword_plain {quote : Quote} {s : S8} (h : hasescape quote s = false) :
    splitword true quote s = splitword false quote s := by
  induction s generalizing quote with
  | nil => simp [splitword]
  | cons c s ih =>
    simp only [hasescape, Bool.or_eq_false_iff] at h
    have hp := splitstep_plain h.1
    cases hs : splitstep false quote c s with
    | none => rw [splitword_stop hs, splitword_stop (hp.trans hs)]
    | some r =>
      have hr := (splitstep_false hs).1
      rw [splitword_step hs, splitword_step (hp.trans hs), hr, ih h.2]

theorem replicate_cons {α : Type} (k : Nat) (a : α) (l : List α) :
    List.replicate k a ++ a :: l = a :: (List.replicate k a ++ l) := by
  rw [← List.cons_append, ← List.replicate_succ, List.replicate_succ', List.append_assoc]; rfl

/-- Out of step by backslashes, the two splitters read different words. -/
theorem splitword_slashes {quote : Quote} {s : S8} {w : S8 × S8} (h : splitword true quote s = some w) :
    ∀ w' k, splitword false quote s = some w' → w.1 ≠ List.replicate (k + 1) 0x5c ++ w'.1 := by
  refine splitword_induction (C := fun quote s w =>
    ∀ w' k, splitword false quote s = some w' → w.1 ≠ List.replicate (k + 1) 0x5c ++ w'.1) ?_ ?_ ?_ h
  · intro w' k _; simp [List.replicate_succ]
  · intro c s _ w' k _; simp [List.replicate_succ]
  · intro quote c s r w hs hw ih w' k h' e
    by_cases he : (quote == .double && escapeat c s) = true
    · obtain ⟨rfl, rfl, d, t, rfl, hd, htrue, hfalse⟩ := splitstep_escape he
      rw [htrue] at hs
      cases hs
      rw [splitword_step hfalse, Option.map_eq_some_iff] at h'
      obtain ⟨w1, hw1, rfl⟩ := h'
      rcases hd with rfl | rfl
      · simp [List.replicate_succ] at e
      · -- the escaped backslash is read twice without escapes
        have hs2 : splitstep false .double 0x5c t = some ([0x5c], .double, t) := by
          simp only [splitstep, Bool.false_and]; rfl
        rw [splitword_step hs2, Option.map_eq_some_iff] at hw1
        obtain ⟨w2, hw2, rfl⟩ := hw1
        apply ih w2 (k + 1) hw2
        simp only [List.replicate_succ, List.cons_append, List.nil_append, List.cons.injEq, true_and] at e ⊢
        rw [e, replicate_cons, replicate_cons]
    · rw [Bool.not_eq_true] at he
      rw [splitstep_plain he] at hs
      obtain ⟨hr, hlen⟩ := splitstep_false hs
      rw [splitword_step hs, Option.map_eq_some_iff] at h'
      obtain ⟨w1, hw1, rfl⟩ := h'
      apply ih w1 k hw1
      match ht : r.1, hlen with
      | [], _ => simpa [ht] using e
      | [b], _ =>
        simp only [ht, List.replicate_succ, List.cons_append, List.nil_append, List.cons.injEq] at e ⊢
        obtain ⟨rfl, e⟩ := e
        rw [e, replicate_cons]

/-- When the two splitters read the same word, no backslash escaped in it. -/
theorem splitword_agree {quote : Quote} {s : S8} {w : S8 × S8} (h : splitword true quote s = some w) :
    ∀ w', splitword false quote s = some w' → w.1 = w'.1 →
      w'.2 = w.2 ∧ hasescape quote s = hasescape .none w.2 := by
  refine splitword_induction (C := fun quote s w => ∀ w', splitword false quote s = some w' → w.1 = w'.1 →
    w'.2 = w.2 ∧ hasescape quote s = hasescape .none w.2) ?_ ?_ ?_ h
  · intro w' h' _
    rw [splitword, if_pos rfl] at h'
    cases h'
    exact ⟨rfl, rfl⟩
  · intro c s hc w' h' _
    rw [splitword_stop (by simp [splitstep, hc])] at h'
    cases h'
    exact ⟨rfl, rfl⟩
  · intro quote c s r w hs hw ih w' h' e
    by_cases he : (quote == .double && escapeat c s) = true
    · exfalso
      obtain ⟨rfl, rfl, d, t, rfl, hd, htrue, hfalse⟩ := splitstep_escape he
      rw [htrue] at hs
      cases hs
      rw [splitword_step hfalse, Option.map_eq_some_iff] at h'
      obtain ⟨w1, hw1, rfl⟩ := h'
      rcases hd with rfl | rfl
      · simp at e
      · have hs2 : splitstep false .double 0x5c t = some ([0x5c], .double, t) := by
          simp only [splitstep, Bool.false_and]; rfl
        rw [splitword_step hs2, Option.map_eq_some_iff] at hw1
        obtain ⟨w2, hw2, rfl⟩ := hw1
        exact splitword_slashes hw w2 0 hw2 (by simpa using e)
    · rw [Bool.not_eq_true] at he
      rw [splitstep_plain he] at hs
      obtain ⟨hr, _⟩ := splitstep_false hs
      rw [splitword_step hs, Option.map_eq_some_iff] at h'
      obtain ⟨w1, hw1, rfl⟩ := h'
      obtain ⟨ih1, ih2⟩ := ih w1 hw1 (by simpa using e)
      rw [hr] at ih2
      exact ⟨ih1, by rw [hasescape, he, Bool.false_or]; exact ih2⟩

end GnuWindows.PkgConfig
