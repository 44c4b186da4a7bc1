/-
  GnuWindows.PkgConfig.Dequote — `dequote`: the next argument of a field.

  The loop reads one byte at a time under a quote (`quote`: 0, a single or a double
  quote) and an escape flag. What it prints to `mem` is a byte string here: `printu8`
  appends.
-/
import GnuWindows.PkgConfig.Bytes

namespace GnuWindows.PkgConfig

inductive Quote where
  | none
  | single
  | double
  deriving DecidableEq

structure Dequoted where
  arg : S8
  tail : S8
  ok : Bool
  deriving DecidableEq

/-- Listed, or an encoded byte. -/
def shellmeta (c : UInt8) : Bool :=
  (S "\"!#%&'*<>?[\\]`\x7b|\x7d").any fun m => m == c || pathdecode c != c

/-- One byte: what is printed, and the quote and the flag after it; `none` where the loop
    breaks. -/
def dequotebyte (quote : Quote) (escaped : Bool) (c : UInt8) : Option (S8 × Quote × Bool) :=
  let c := if whitespace c then 0x20 else c
  let decoded := pathdecode c
  match quote with
  | .single =>
    if c == 0x27 then some ([], .none, escaped)
    else if c == 0x20 || shellmeta c then some ([0x5c, decoded], .single, escaped)
    else some ([decoded], .single, escaped)
  | .double =>
    if escaped then
      let slashes := if c != 0x5c && c != 0x22 then (if c == 0x20 || shellmeta c then [0x5c, 0x5c] else [0x5c]) else []
      some (slashes ++ [decoded], .double, false)
    else if c == 0x22 then some ([], .none, escaped)
    else if c == 0x20 || shellmeta c then some ([0x5c, decoded], .double, escaped)
    else some ([decoded], .double, c == 0x5c)
  | .none =>
    if c == 0x27 then some ([], .single, escaped)
    else if c == 0x22 then some ([], .double, escaped)
    else if shellmeta c then some ([0x5c, decoded], .none, escaped)
    else if c == 0x20 then none
    else some ([c], .none, escaped)

/-- What is printed, the bytes not processed and the quote at the end. -/
def dequoteloop : S8 → Quote → Bool → S8 × S8 × Quote
  | [], quote, _ => ([], [], quote)
  | c :: s, quote, escaped =>
    match dequotebyte quote escaped c with
    | none => ([], c :: s, quote)
    | some (text, quote', escaped') =>
      let r := dequoteloop s quote' escaped'
      (text ++ r.1, r.2)

/-- Process the next token. -/
def dequote (s : S8) : Dequoted :=
  let r := dequoteloop (s.dropWhile whitespace) .none false
  if r.2.2 ≠ .none then ⟨[], [], false⟩ else ⟨r.1, r.2.1, true⟩

/-! ## A token that is returned was taken off the field -/

theorem dequoteloop_tail_le (s : S8) (quote : Quote) (escaped : Bool) :
    (dequoteloop s quote escaped).2.1.length ≤ s.length := by
  induction s generalizing quote escaped with
  | nil => exact Nat.le_refl _
  | cons c s ih =>
    simp only [dequoteloop]
    split
    · exact Nat.le_refl _
    · exact Nat.le_succ_of_le (ih _ _)

/-- Only whitespace outside quotes breaks the loop. -/
theorem dequotebyte_none {quote : Quote} {escaped : Bool} {c : UInt8} (h : dequotebyte quote escaped c = none) :
    quote = .none ∧ whitespace c = true := by
  by_cases hw : whitespace c = true
  · refine ⟨?_, hw⟩
    cases quote with
    | none => rfl
    | single => simp [dequotebyte, hw] at h
    | double => cases escaped <;> simp [dequotebyte, hw] at h
  · exfalso
    have hs : c ≠ 0x20 := by intro he; subst he; exact hw (by decide)
    cases quote with
    | none =>
      simp only [dequotebyte, hw, Bool.false_eq_true, if_false] at h
      split at h
      · cases h
      · split at h
        · cases h
        · split at h
          · cases h
          · simp [hs] at h
    | single =>
      simp only [dequotebyte, hw, Bool.false_eq_true, if_false] at h
      split at h
      · cases h
      · split at h <;> cases h
    | double =>
      simp only [dequotebyte, hw, Bool.false_eq_true, if_false] at h
      split at h
      · cases h
      · split at h
        · cases h
        · split at h <;> cases h

theorem dequote_tail_lt {s : S8} (h : s ≠ []) (hok : (dequote s).ok = true) : (dequote s).tail.length < s.length := by
  have hd : (s.dropWhile whitespace).length ≤ s.length := (List.dropWhile_sublist _).length_le
  have htail : (dequote s).tail = (dequoteloop (s.dropWhile whitespace) .none false).2.1 := by
    by_cases hq : (dequoteloop (s.dropWhile whitespace) .none false).2.2 = .none
    · simp [dequote, hq]
    · simp [dequote, hq] at hok
  rw [htail]
  cases hs : s.dropWhile whitespace with
  | nil => exact List.length_pos_iff.mpr h
  | cons c t =>
    have hc : whitespace c = false := by
      have := List.head?_dropWhile_not whitespace s
      rw [hs] at this
      simpa using this
    rw [hs, List.length_cons] at hd
    simp only [dequoteloop]
    split
    · rename_i hb; rw [(dequotebyte_none hb).2] at hc; cases hc
    · exact Nat.lt_of_le_of_lt (dequoteloop_tail_le _ _ _) (by omega)

end GnuWindows.PkgConfig
