/-
  GnuWindows.PkgConfig.Cmdargs — the arguments of a command line (`cmdline_to_argv8`).

  A program name and arguments are rendered in double quotes, with backslashes doubled
  where a quote follows. The parser is run over such a command line with any encoder of
  code points, and then with that of UTF-8.

  Proved:
  - `quoted_run`: a rendered argument is read back, whatever backslashes and quotes are in
    it.
  - `render_run`: so are a program name and any number of arguments.
-/
import GnuWindows.Lib.Utf
import GnuWindows.PkgConfig.CmdlineProofs
import GnuWindows.PkgConfig.WideProofs
import Mathlib.Data.List.Forall2

namespace GnuWindows.PkgConfig

open GnuWindows.Lib.Utf

/-! ## Rendering -/

/-- An argument between its quotes, after `n` backslashes that are not written yet. -/
def quotebody : Nat → S16 → S16
  | n, [] => List.replicate (2 * n) 0x5c
  | n, u :: arg =>
    if u = 0x5c then quotebody (n + 1) arg
    else if u = 0x22 then List.replicate (2 * n + 1) 0x5c ++ 0x22 :: quotebody 0 arg
    else List.replicate n 0x5c ++ u :: quotebody 0 arg

/-- Arguments, each with the blanks before it. -/
def renderargs : List (S16 × S16) → S16
  | [] => []
  | (separator, arg) :: rest => separator ++ 0x22 :: (quotebody 0 arg ++ 0x22 :: renderargs rest)

def render (name : S16) (args : List (S16 × S16)) : S16 := 0x22 :: (name ++ 0x22 :: renderargs args)

/-- One or more spaces or tabs. -/
def Separator (w : S16) : Prop := w ≠ [] ∧ ∀ u ∈ w, blank u.toNat = true

/-! ## Code points -/

theorem takechar_pair {u lo : UInt16} (h : IsHigh u ∧ IsLow lo) (cmd : S16) :
    takechar u (lo :: cmd) = (combine u lo, cmd) := by
  obtain ⟨⟨_, _⟩, _, _⟩ := h
  have hhi : u.toNat >>> 10 = 0x36 := by rw [Nat.shiftRight_eq_div_pow]; omega
  have hlo : lo.toNat >>> 10 = 0x37 := by rw [Nat.shiftRight_eq_div_pow]; omega
  rw [takechar, if_pos ⟨hhi, hlo⟩, Nat.shiftLeft_eq]
  rfl

theorem takechar_one {u : UInt16} {cmd : S16} (h : ∀ lo ∈ cmd.head?, ¬ (IsHigh u ∧ IsLow lo)) :
    takechar u cmd = (u.toNat, cmd) := by
  cases cmd with
  | nil => rfl
  | cons lo cmd =>
    have hne := h lo rfl
    rw [takechar, if_neg]
    intro hpair
    obtain ⟨hhi, hlo⟩ := hpair
    rw [Nat.shiftRight_eq_div_pow] at hhi hlo
    exact hne ⟨⟨by omega, by omega⟩, by omega, by omega⟩

/-- What is taken off a string is its first code point. -/
theorem takechar_codePoints (u : UInt16) (cmd : S16) :
    codePoints (u :: cmd) = (takechar u cmd).1 :: codePoints (takechar u cmd).2 := by
  cases cmd with
  | nil => rfl
  | cons lo cmd =>
    by_cases h : IsHigh u ∧ IsLow lo
    · rw [takechar_pair h, codePoints, if_pos h]
    · rw [takechar_one (by rintro _ ⟨⟩; exact h), codePoints, if_neg h]

/-- Units before one that is no low surrogate are read as if nothing came after them. -/
theorem takechar_append {t : S16} (ht : ∀ lo ∈ t.head?, ¬ IsLow lo) (u : UInt16) (cmd : S16) :
    takechar u (cmd ++ t) = ((takechar u cmd).1, (takechar u cmd).2 ++ t) := by
  cases cmd with
  | nil => exact takechar_one fun lo hlo h => ht lo hlo h.2
  | cons lo cmd =>
    by_cases h : IsHigh u ∧ IsLow lo
    · rw [List.cons_append, takechar_pair h, takechar_pair h]
    · have hne : ∀ x : UInt16, x ∈ some lo → ¬ (IsHigh u ∧ IsLow x) := by rintro _ ⟨⟩; exact h
      have halone : takechar u (lo :: cmd) = (u.toNat, lo :: cmd) := takechar_one hne
      have hbefore : takechar u (lo :: cmd ++ t) = (u.toNat, lo :: cmd ++ t) := takechar_one hne
      rw [halone, hbefore]

theorem takechar_low {u : UInt16} (h : u.toNat < 0xd800) (cmd : S16) : takechar u cmd = (u.toNat, cmd) := by
  apply takechar_one
  intro lo _ hpair
  have := hpair.1.1
  omega

/-- A unit that is no blank, quote or backslash does not start a code point that is one. -/
theorem takechar_ne {u : UInt16} {c : Nat} (hc : c < 0xd800) (h : u.toNat ≠ c) (cmd : S16) :
    (takechar u cmd).1 ≠ c := by
  rcases takechar_cases u cmd with e | ⟨lo, rest, p, _, e, hp, _⟩
  · rw [e]; exact h
  · rw [e]; show p ≠ c; omega

/-! ## Backslashes and quotes -/

variable {α : Type} {emit : Nat → List α} {zero bs : α}

theorem run_turn {s s' : Cmdstate α} (h : cmdturn emit zero s = .go s') :
    (cmdMachine emit zero).run s = (cmdMachine emit zero).run s' :=
  (cmdMachine emit zero).run_go h

/-- Backslashes are stored and counted. -/
theorem backslashes_run (hbs : emit 0x5c = [bs]) (n : Nat) (t : S16) (argv : List Nat) (slash : Nat) (buf : List α) :
    (cmdMachine emit zero).run ⟨List.replicate n 0x5c ++ t, argv, .quotedslashes, slash, buf⟩ =
      (cmdMachine emit zero).run ⟨t, argv, .quotedslashes, slash + n, buf ++ List.replicate n bs⟩ := by
  induction n generalizing slash buf with
  | zero => rw [List.replicate_zero, List.nil_append, List.replicate_zero, List.append_nil]; rfl
  | succ n ih =>
    have hturn : cmdturn emit zero ⟨0x5c :: (List.replicate n 0x5c ++ t), argv, .quotedslashes, slash, buf⟩ =
        .go ⟨List.replicate n 0x5c ++ t, argv, .quotedslashes, slash + 1, buf ++ [bs]⟩ := by
      simp [cmdturn, slashturn, takechar_low, hbs]
    rw [List.replicate_succ, List.cons_append, run_turn hturn, ih, List.replicate_succ, List.append_assoc,
      List.singleton_append, Nat.add_assoc, Nat.add_comm 1 n]

/-- The first backslash starts a sequence. -/
theorem slashes_start (hbs : emit 0x5c = [bs]) (n : Nat) (t : S16) (argv : List Nat) (slash : Nat) (buf : List α) :
    (cmdMachine emit zero).run ⟨List.replicate (n + 1) 0x5c ++ t, argv, .quoted, slash, buf⟩ =
      (cmdMachine emit zero).run ⟨t, argv, .quotedslashes, n + 1, buf ++ List.replicate (n + 1) bs⟩ := by
  have hturn : cmdturn emit zero ⟨0x5c :: (List.replicate n 0x5c ++ t), argv, .quoted, slash, buf⟩ =
      .go ⟨List.replicate n 0x5c ++ t, argv, .quotedslashes, 1, buf ++ [bs]⟩ := by
    simp [cmdturn, takechar_low, hbs]
  rw [List.replicate_succ, List.cons_append, run_turn hturn, backslashes_run hbs, List.replicate_succ,
    List.append_assoc, List.singleton_append, Nat.add_comm 1 n]

/-- A quote after `n` backslashes takes half of them back, rounded up. -/
theorem quote_turn (emit : Nat → List α) (zero bs : α) (n : Nat) (t : S16) (argv : List Nat) (buf : List α) :
    cmdturn emit zero ⟨0x22 :: t, argv, .quotedslashes, n, buf ++ List.replicate n bs⟩ =
      if n % 2 = 1 then .go ⟨t, argv, .quoted, n, buf ++ List.replicate (n / 2) bs ++ emit 0x22⟩
      else .go ⟨0x22 :: t, argv, .quoted, n, buf ++ List.replicate (n / 2) bs⟩ := by
  have hcount : (1 + n) >>> 1 = (1 + n) / 2 := Nat.shiftRight_eq_div_pow (1 + n) 1
  have hle : (1 + n) / 2 ≤ n ∨ n = 0 := by omega
  have hlen : (buf ++ List.replicate n bs).length = buf.length + n := by rw [List.length_append, List.length_replicate]
  have htake : (buf ++ List.replicate n bs).take (buf.length + n - (1 + n) / 2) = buf ++ List.replicate (n / 2) bs := by
    rw [Nat.add_sub_assoc (by omega), List.take_length_add_append, List.take_replicate,
      Nat.min_eq_left (Nat.sub_le _ _), show n - (1 + n) / 2 = n / 2 by omega]
  simp only [cmdturn, slashturn, takechar_low (u := 0x22) (by decide)]
  rw [if_pos (show (0x22 : UInt16).toNat = 0x22 from rfl), hcount, hlen, if_neg (by omega), Nat.and_one_is_mod, htake]
  rfl

/-- An even number of backslashes and a quote: half of them, and the quote ends the token. -/
theorem slashes_even (zero : α) (hbs : emit 0x5c = [bs]) (n : Nat) (t : S16) (argv : List Nat) (slash : Nat)
    (buf : List α) :
    ∃ slash', (cmdMachine emit zero).run ⟨List.replicate (2 * n) 0x5c ++ 0x22 :: t, argv, .quoted, slash, buf⟩ =
      (cmdMachine emit zero).run ⟨t, argv, .exit, slash', buf ++ List.replicate n bs⟩ := by
  have hexit : ∀ slash buf,
      cmdturn emit zero ⟨0x22 :: t, argv, .quoted, slash, buf⟩ = .go ⟨t, argv, .exit, slash, buf⟩ := by
    intro slash buf
    simp [cmdturn, takechar_low]
  cases n with
  | zero => exact ⟨slash, by rw [Nat.mul_zero, List.replicate_zero, List.nil_append, run_turn (hexit _ _)]; simp⟩
  | succ n =>
    have hquote := quote_turn emit zero bs (2 * n + 1 + 1) t argv buf
    rw [if_neg (by omega), show (2 * n + 1 + 1) / 2 = n + 1 by omega] at hquote
    refine ⟨2 * n + 1 + 1, ?_⟩
    rw [show 2 * (n + 1) = 2 * n + 1 + 1 by omega, slashes_start hbs, run_turn hquote, run_turn (hexit _ _)]

/-- An odd number of backslashes and a quote: half of them, and the quote. -/
theorem slashes_odd (zero : α) (hbs : emit 0x5c = [bs]) (n : Nat) (t : S16) (argv : List Nat) (slash : Nat)
    (buf : List α) :
    ∃ slash', (cmdMachine emit zero).run ⟨List.replicate (2 * n + 1) 0x5c ++ 0x22 :: t, argv, .quoted, slash, buf⟩ =
      (cmdMachine emit zero).run ⟨t, argv, .quoted, slash', buf ++ List.replicate n bs ++ emit 0x22⟩ := by
  have hquote := quote_turn emit zero bs (2 * n + 1) t argv buf
  rw [if_pos (by omega), show (2 * n + 1) / 2 = n by omega] at hquote
  exact ⟨2 * n + 1, by rw [slashes_start hbs, run_turn hquote]⟩

/-- Backslashes before anything but a quote stay as they are. -/
theorem slashes_other (zero : α) (hbs : emit 0x5c = [bs]) (n : Nat) {u : UInt16} (hs : u ≠ 0x5c) (hq : u ≠ 0x22)
    (t : S16) (argv : List Nat) (slash : Nat) (buf : List α) :
    ∃ slash', (cmdMachine emit zero).run ⟨List.replicate n 0x5c ++ u :: t, argv, .quoted, slash, buf⟩ =
      (cmdMachine emit zero).run
        ⟨(takechar u t).2, argv, .quoted, slash', buf ++ List.replicate n bs ++ emit (takechar u t).1⟩ := by
  have hs' : (takechar u t).1 ≠ 0x5c := takechar_ne (by decide) (fun e => hs (UInt16.toNat_inj.mp e)) t
  have hq' : (takechar u t).1 ≠ 0x22 := takechar_ne (by decide) (fun e => hq (UInt16.toNat_inj.mp e)) t
  have hplain : ∀ slash buf, cmdturn emit zero ⟨u :: t, argv, .quoted, slash, buf⟩ =
      .go ⟨(takechar u t).2, argv, .quoted, slash, buf ++ emit (takechar u t).1⟩ := by
    intro slash buf
    simp only [cmdturn]
    rw [if_neg hq', if_neg hs']
  cases n with
  | zero => exact ⟨slash, by rw [List.replicate_zero, List.nil_append, run_turn (hplain _ _)]; simp⟩
  | succ n =>
    have hturn : cmdturn emit zero ⟨u :: t, argv, .quotedslashes, n + 1, buf ++ List.replicate (n + 1) bs⟩ =
        .go ⟨u :: t, argv, .quoted, n + 1, buf ++ List.replicate (n + 1) bs⟩ := by
      simp only [cmdturn, slashturn]
      rw [if_neg hq', if_neg hs']
    exact ⟨n + 1, by rw [slashes_start hbs, run_turn hturn, run_turn (hplain _ _)]⟩

/-! ## A quoted argument -/

theorem quotebody_succ (n : Nat) (arg : S16) : ∃ t, quotebody (n + 1) arg = 0x5c :: t := by
  induction arg generalizing n with
  | nil => exact ⟨List.replicate (2 * n + 1) 0x5c, rfl⟩
  | cons u arg ih =>
    unfold quotebody
    split
    · exact ih (n + 1)
    split
    · exact ⟨_, by rw [show 2 * (n + 1) + 1 = 2 * n + 2 + 1 by omega, List.replicate_succ]; rfl⟩
    · exact ⟨_, by rw [List.replicate_succ]; rfl⟩

/-- What follows a unit in an argument and in the rendering has the same low surrogate. -/
theorem takechar_quotebody (u : UInt16) (arg t : S16) :
    ∃ arg', takechar u arg = ((takechar u arg).1, arg') ∧ arg'.length ≤ arg.length ∧
      takechar u (quotebody 0 arg ++ 0x22 :: t) = ((takechar u arg).1, quotebody 0 arg' ++ 0x22 :: t) := by
  have hquote : ¬ IsLow 0x22 := by decide
  have hslash : ¬ IsLow 0x5c := by decide
  cases arg with
  | nil => exact ⟨[], rfl, Nat.le_refl 0, takechar_one (by rintro _ ⟨⟩ h; exact hquote h.2)⟩
  | cons lo arg =>
    by_cases h : IsHigh u ∧ IsLow lo
    · have hlo : lo ≠ 0x5c ∧ lo ≠ 0x22 := ⟨by rintro rfl; exact hslash h.2, by rintro rfl; exact hquote h.2⟩
      refine ⟨arg, by rw [takechar_pair h], Nat.le_succ _, ?_⟩
      rw [quotebody, if_neg hlo.1, if_neg hlo.2, List.replicate_zero, List.nil_append, List.cons_append,
        takechar_pair h, takechar_pair h]
    · have hone : takechar u (lo :: arg) = (u.toNat, lo :: arg) := takechar_one (by rintro _ ⟨⟩; exact h)
      refine ⟨lo :: arg, by rw [hone], Nat.le_refl _, ?_⟩
      rw [hone]
      apply takechar_one
      intro x hx hpair
      unfold quotebody at hx
      split at hx
      · obtain ⟨t', ht'⟩ := quotebody_succ 0 arg
        rw [ht'] at hx
        cases hx
        exact hslash hpair.2
      split at hx
      · cases hx
        exact hslash hpair.2
      · cases hx
        exact h hpair

/-- A rendered argument, after `n` backslashes, is read back. -/
theorem quoted_run (zero : α) (hbs : emit 0x5c = [bs]) (arg : S16) (n : Nat) (t : S16) (argv : List Nat) (slash : Nat)
    (buf : List α) :
    ∃ slash', (cmdMachine emit zero).run ⟨quotebody n arg ++ 0x22 :: t, argv, .quoted, slash, buf⟩ =
      (cmdMachine emit zero).run
        ⟨t, argv, .exit, slash', buf ++ List.replicate n bs ++ (codePoints arg).flatMap emit⟩ := by
  -- by the length of the argument: a turn takes a unit of it, or a pair
  induction hlen : arg.length using Nat.strongRecOn generalizing arg n slash buf with
  | _ len ih =>
    subst hlen
    cases arg with
    | nil => simpa [quotebody, codePoints] using slashes_even zero hbs n t argv slash buf
    | cons u arg =>
      rw [quotebody, takechar_codePoints, List.flatMap_cons]
      split
      · rename_i hs
        obtain ⟨slash', h⟩ := ih _ (Nat.lt_succ_self _) arg (n + 1) slash buf rfl
        refine ⟨slash', ?_⟩
        rw [h, hs, takechar_low (by decide), show (0x5c : UInt16).toNat = 0x5c from rfl, hbs, List.replicate_succ']
        simp
      split
      · rename_i hq
        obtain ⟨slash₁, hodd⟩ := slashes_odd zero hbs n (quotebody 0 arg ++ 0x22 :: t) argv slash buf
        obtain ⟨slash', h⟩ := ih _ (Nat.lt_succ_self _) arg 0 slash₁ (buf ++ List.replicate n bs ++ emit 0x22) rfl
        refine ⟨slash', ?_⟩
        rw [List.append_assoc, List.cons_append, hodd, h, hq, takechar_low (by decide),
          show (0x22 : UInt16).toNat = 0x22 from rfl]
        simp
      · rename_i hs hq
        obtain ⟨arg', htake, hle, hbody⟩ := takechar_quotebody u arg t
        obtain ⟨slash₁, hother⟩ := slashes_other zero hbs n hs hq (quotebody 0 arg ++ 0x22 :: t) argv slash buf
        rw [hbody] at hother
        obtain ⟨slash', h⟩ := ih arg'.length (Nat.lt_succ_of_le hle) arg' 0 slash₁
          (buf ++ List.replicate n bs ++ emit (takechar u arg).1) rfl
        refine ⟨slash', ?_⟩
        rw [List.append_assoc, List.cons_append, hother, h, htake]
        simp

/-! ## Units that are only stored -/

/-- What is part of the argument in this state, and nothing more. -/
def Cmdmode.stores : Cmdmode → Nat → Bool
  | .unquoted, c => !blank c && c != 0x22 && c != 0x5c
  | .unquoted0, c => !blank c
  | .quoted0, c => c != 0x22
  | _, _ => false

theorem cmdturn_stores {state : Cmdmode} {u : UInt16} {cmd : S16} (h : state.stores (takechar u cmd).1 = true)
    (argv : List Nat) (slash : Nat) (buf : List α) :
    cmdturn emit zero ⟨u :: cmd, argv, state, slash, buf⟩ =
      .go ⟨(takechar u cmd).2, argv, state, slash, buf ++ emit (takechar u cmd).1⟩ := by
  cases state with
  | unquoted =>
    simp only [Cmdmode.stores, Bool.and_eq_true, Bool.not_eq_true', bne_iff_ne] at h
    simp only [cmdturn]
    rw [if_neg (by rw [h.1.1]; exact Bool.false_ne_true), if_neg h.1.2, if_neg h.2]
  | unquoted0 =>
    simp only [Cmdmode.stores, Bool.not_eq_true'] at h
    simp only [cmdturn]
    rw [if_neg (by rw [h]; exact Bool.false_ne_true)]
  | quoted0 =>
    simp only [Cmdmode.stores, bne_iff_ne] at h
    simp only [cmdturn]
    rw [if_neg h]
  | outside | quoted | slashes | quotedslashes | exit | begin0 => cases h

/-- A pair is stored where its first unit would be. -/
theorem stores_takechar {state : Cmdmode} {u : UInt16} (h : state.stores u.toNat = true) (cmd : S16) :
    state.stores (takechar u cmd).1 = true := by
  rcases takechar_cases u cmd with e | ⟨lo, rest, c, _, e, hc, _⟩
  · rw [e]; exact h
  · rw [e]
    have hb : blank c = false := blank_of_lt (by omega)
    have hq : c ≠ 0x22 := by omega
    have hs : c ≠ 0x5c := by omega
    cases state with
    | unquoted | unquoted0 | quoted0 => simp [Cmdmode.stores, hb, hq, hs]
    | outside | quoted | slashes | quotedslashes | exit | begin0 => cases h

theorem stores_run {state : Cmdmode} {w : S16} (hw : ∀ u ∈ w, state.stores u.toNat = true) {t : S16}
    (ht : ∀ lo ∈ t.head?, ¬ IsLow lo) (argv : List Nat) (slash : Nat) (buf : List α) :
    (cmdMachine emit zero).run ⟨w ++ t, argv, state, slash, buf⟩ =
      (cmdMachine emit zero).run ⟨t, argv, state, slash, buf ++ (codePoints w).flatMap emit⟩ := by
  induction hlen : w.length using Nat.strongRecOn generalizing w buf with
  | _ len ih =>
    subst hlen
    cases w with
    | nil => rw [List.nil_append, codePoints, List.flatMap_nil, List.append_nil]
    | cons u w =>
      obtain ⟨hu, hw⟩ := List.forall_mem_cons.mp hw
      have happend := takechar_append ht u w
      have hle := takechar_le u w
      have htail : ∀ x ∈ (takechar u w).2, state.stores x.toNat = true := by
        rcases takechar_cases u w with e | ⟨lo, rest, p, rfl, e, _⟩
        · rw [e]; exact hw
        · rw [e]; exact fun x hx => hw x (List.mem_cons_of_mem _ hx)
      have hturn : cmdturn emit zero ⟨u :: (w ++ t), argv, state, slash, buf⟩ =
          .go ⟨(takechar u w).2 ++ t, argv, state, slash, buf ++ emit (takechar u w).1⟩ := by
        rw [cmdturn_stores (by rw [happend]; exact stores_takechar hu w), happend]
      rw [List.cons_append, run_turn hturn, ih _ (Nat.lt_succ_of_le hle) htail _ rfl, takechar_codePoints,
        List.flatMap_cons, List.append_assoc buf]

/-! ## A rendered command line -/

theorem quoted0_stores {name : S16} (h : 0x22 ∉ name) : ∀ u ∈ name, Cmdmode.quoted0.stores u.toNat = true := by
  intro u hu
  rw [Cmdmode.stores, bne_iff_ne]
  intro e
  rw [UInt16.toNat_inj.mp (show u.toNat = (0x22 : UInt16).toNat from e)] at hu
  exact h hu

/-- The quoted program name, to its closing quote. -/
theorem name_run (name t : S16) (hname : 0x22 ∉ name) (argv : List Nat) (slash : Nat) (buf : List α) :
    (cmdMachine emit zero).run ⟨name ++ 0x22 :: t, argv, .quoted0, slash, buf⟩ =
      (cmdMachine emit zero).run ⟨t, argv, .outside, slash, buf ++ (codePoints name).flatMap emit ++ [zero]⟩ := by
  have hquote : ¬ IsLow 0x22 := by decide
  have hturn : ∀ buf : List α, cmdturn emit zero ⟨0x22 :: t, argv, .quoted0, slash, buf⟩ =
      .go ⟨t, argv, .outside, slash, buf ++ [zero]⟩ := by
    intro buf
    simp [cmdturn, takechar_low]
  rw [stores_run (quoted0_stores hname) (by rintro _ ⟨⟩; exact hquote), run_turn (hturn _)]

theorem takechar_blank {u : UInt16} (h : blank u.toNat = true) (cmd : S16) : takechar u cmd = (u.toNat, cmd) := by
  apply takechar_low
  rw [blank, Bool.or_eq_true, beq_iff_eq, beq_iff_eq] at h
  omega

/-- Blanks outside of arguments are skipped, and a quote starts an argument. -/
theorem separator_run {w : S16} (hw : ∀ u ∈ w, blank u.toNat = true) (t : S16) (argv : List Nat) (slash : Nat)
    (buf : List α) :
    (cmdMachine emit zero).run ⟨w ++ 0x22 :: t, argv, .outside, slash, buf⟩ =
      (cmdMachine emit zero).run ⟨t, argv ++ [buf.length], .quoted, slash, buf⟩ := by
  induction w with
  | nil =>
    have hturn : cmdturn emit zero ⟨0x22 :: t, argv, .outside, slash, buf⟩ =
        .go ⟨t, argv ++ [buf.length], .quoted, slash, buf⟩ := by
      simp [cmdturn, takechar_low, blank]
    exact run_turn hturn
  | cons u w ih =>
    obtain ⟨hu, hw⟩ := List.forall_mem_cons.mp hw
    have hturn : cmdturn emit zero ⟨u :: (w ++ 0x22 :: t), argv, .outside, slash, buf⟩ =
        .go ⟨w ++ 0x22 :: t, argv, .outside, slash, buf⟩ := by
      simp only [cmdturn, takechar_blank hu, hu, if_true]
    rw [List.cons_append, run_turn hturn, ih hw]

/-- After the closing quote a blank ends the argument. -/
theorem exit_run (emit : Nat → List α) (zero : α) {u : UInt16} (hu : blank u.toNat = true) (t : S16) (argv : List Nat)
    (slash : Nat) (buf : List α) :
    (cmdMachine emit zero).run ⟨u :: t, argv, .exit, slash, buf⟩ =
      (cmdMachine emit zero).run ⟨t, argv, .outside, slash, buf ++ [zero]⟩ := by
  have hne : u.toNat ≠ 0x22 := by
    intro h
    rw [h] at hu
    cases hu
  have hexit : cmdturn emit zero ⟨u :: t, argv, .exit, slash, buf⟩ = .go ⟨u :: t, argv, .unquoted, slash, buf⟩ := by
    simp only [cmdturn, takechar_blank hu]
    rw [if_neg hne]
  have hend :
      cmdturn emit zero ⟨u :: t, argv, .unquoted, slash, buf⟩ = .go ⟨t, argv, .outside, slash, buf ++ [zero]⟩ := by
    simp only [cmdturn, takechar_blank hu, hu, if_true]
  rw [run_turn hexit, run_turn hend]

/-- A string is stored from here on, with its terminator. -/
def Stored (zero : α) (mem : List α) (start : Nat) (s : List α) : Prop := ∃ rest, mem.drop start = s ++ zero :: rest

theorem Stored.append {mem : List α} {start : Nat} {s : List α} (h : Stored zero mem start s) (l : List α) :
    Stored zero (mem ++ l) start s := by
  obtain ⟨rest, h⟩ := h
  have hlt : start < mem.length := by
    by_contra hge
    rw [List.drop_eq_nil_of_le (by omega)] at h
    cases s <;> cases h
  exact ⟨rest ++ l, by rw [List.drop_append_of_le_length (by omega), h]; simp⟩

theorem Stored.last (buf s : List α) : Stored zero (buf ++ s ++ [zero]) buf.length s :=
  ⟨[], by rw [List.append_assoc, List.drop_left]⟩

/-- One more string is stored. -/
theorem Stored.snoc {argv : List Nat} {buf : List α} {ss : List (List α)} (h : List.Forall₂ (Stored zero buf) argv ss)
    (s : List α) : List.Forall₂ (Stored zero (buf ++ s ++ [zero])) (argv ++ [buf.length]) (ss ++ [s]) := by
  apply List.rel_append
  · rw [List.append_assoc]
    exact h.imp fun start x hx => hx.append _
  · exact .cons (Stored.last buf s) .nil

/-- The stored strings are those read from the memory, when no terminator is in them. -/
theorem strings_eq [DecidableEq α] {argv : List Nat} {mem : List α} {ss : List (List α)}
    (h : List.Forall₂ (Stored zero mem) argv ss) (hz : ∀ s ∈ ss, zero ∉ s) : strings zero argv mem = ss := by
  induction h with
  | nil => rfl
  | @cons start s argv ss hs _ ih =>
    obtain ⟨rest, hs⟩ := hs
    have hne : ∀ x ∈ s, decide (x ≠ zero) = true := by
      intro x hx
      rw [decide_eq_true_iff]
      rintro rfl
      exact hz s List.mem_cons_self hx
    have htake : (s ++ zero :: rest).takeWhile (· ≠ zero) = s := by
      rw [List.takeWhile_append_of_pos hne, List.takeWhile_cons_of_neg (by simp), List.append_nil]
    have ih := ih fun x hx => hz x (List.mem_cons_of_mem _ hx)
    rw [strings] at ih ⊢
    rw [List.map_cons, ih, hs, htake]

theorem cmdMachine_stop (argv : List Nat) (state : Cmdmode) (slash : Nat) (buf : List α) :
    (cmdMachine emit zero).run ⟨[], argv, state, slash, buf⟩ = some ⟨[], argv, state, slash, buf⟩ :=
  (cmdMachine emit zero).run_stop (s := ⟨[], argv, state, slash, buf⟩) rfl

/-- The arguments, one after the other: the blank that ends one is the first of the
    separator after it, so that none is left where the next one starts over. -/
theorem renderargs_run (hbs : emit 0x5c = [bs]) (args : List (S16 × S16)) (hargs : ∀ x ∈ args, Separator x.1)
    (w arg : S16) (hw : ∀ u ∈ w, blank u.toNat = true) (argv : List Nat) (slash : Nat) (buf : List α)
    (ss : List (List α)) (h : List.Forall₂ (Stored zero buf) argv ss) :
    ∃ r, (cmdMachine emit zero).run ⟨renderargs ((w, arg) :: args), argv, .outside, slash, buf⟩ = some r ∧
      List.Forall₂ (Stored zero (r.buf ++ [zero])) r.argv
        (ss ++ ((w, arg) :: args).map fun x => (codePoints x.2).flatMap emit) := by
  induction args generalizing w arg argv slash buf ss with
  | nil =>
    obtain ⟨slash₁, hquoted⟩ := quoted_run zero hbs arg 0 (renderargs []) (argv ++ [buf.length]) slash buf
    rw [List.replicate_zero, List.append_nil] at hquoted
    rw [renderargs, separator_run hw, hquoted]
    exact ⟨_, cmdMachine_stop _ _ _ _, Stored.snoc h _⟩
  | cons y args ih =>
    obtain ⟨w', arg'⟩ := y
    obtain ⟨⟨hne, hblank⟩, hrest⟩ := List.forall_mem_cons.mp hargs
    obtain ⟨slash₁, hquoted⟩ :=
      quoted_run zero hbs arg 0 (renderargs ((w', arg') :: args)) (argv ++ [buf.length]) slash buf
    rw [List.replicate_zero, List.append_nil] at hquoted
    rw [renderargs, separator_run hw, hquoted, List.map_cons, List.append_cons ss]
    cases w' with
    | nil => exact absurd rfl hne
    | cons u w' =>
      obtain ⟨hu, hblank⟩ := List.forall_mem_cons.mp hblank
      have hstored : List.Forall₂ (Stored zero (buf ++ (codePoints arg).flatMap emit ++ [zero]))
          (argv ++ [buf.length]) (ss ++ [(codePoints arg).flatMap emit]) := Stored.snoc h _
      obtain ⟨r, hrun, hr⟩ := ih hrest w' arg' hblank _ slash₁ _ _ hstored
      have hexit := exit_run emit zero hu (w' ++ 0x22 :: (quotebody 0 arg' ++ 0x22 :: renderargs args))
        (argv ++ [buf.length]) slash₁ (buf ++ (codePoints arg).flatMap emit)
      refine ⟨r, ?_, hr⟩
      rw [← hrun]
      exact hexit

/-- What a rendered command line is parsed to. -/
theorem render_run (zero : α) (hbs : emit 0x5c = [bs]) (name : S16) (hname : 0x22 ∉ name) (args : List (S16 × S16))
    (hargs : ∀ x ∈ args, Separator x.1) :
    ∃ r, (cmdMachine emit zero).run (.start (render name args)) = some r ∧
      List.Forall₂ (Stored zero (r.buf ++ [zero])) r.argv
        ((name :: args.map Prod.snd).map fun s => (codePoints s).flatMap emit) := by
  have hturn : cmdturn emit zero (.start (render name args)) =
      .go ⟨name ++ 0x22 :: renderargs args, [0], .quoted0, 0, []⟩ := by
    simp [cmdturn, Cmdstate.start, render, takechar_low, blank]
  have hstored : List.Forall₂ (Stored zero (([] : List α) ++ (codePoints name).flatMap emit ++ [zero])) [0]
      [(codePoints name).flatMap emit] := .cons (Stored.last [] _) .nil
  rw [run_turn hturn, name_run name _ hname, List.map_cons, List.map_map]
  cases args with
  | nil => exact ⟨_, cmdMachine_stop _ _ _ _, hstored.imp fun start s hs => hs.append [zero]⟩
  | cons x args =>
    obtain ⟨hx, hargs⟩ := List.forall_mem_cons.mp hargs
    exact renderargs_run hbs args hargs x.1 x.2 hx.2 _ _ _ _ hstored

/-! ## The bytes of the arguments -/

theorem wtf8_eq (w : S16) : (codePoints w).flatMap utf8bytes = wtf8 w := by
  apply List.flatMap_congr
  intro p hp
  exact utf8bytes_eq (codePoints_lt w p hp)

/-- Only the code point 0 has a byte that is 0. -/
theorem zero_notMem_utf8bytes {c : Nat} (hc : c ≠ 0) (h : c < 0x110000) : 0 ∉ utf8bytes c := by
  have hbyte : ∀ n, 0 < n → n < 256 → (0 : UInt8) ≠ UInt8.ofNat n := by
    intro n hpos hlt h
    have := congrArg UInt8.toNat h
    rw [toNat_byte hlt] at this
    exact absurd this (Nat.ne_of_lt hpos)
  rw [utf8bytes_eq h]
  repeat' split
  all_goals simp only [List.mem_cons, List.not_mem_nil, or_false, not_or]
  · exact hbyte _ (by omega) (by omega)
  · exact ⟨hbyte _ (by omega) (by omega), hbyte _ (by omega) (by omega)⟩
  · exact ⟨hbyte _ (by omega) (by omega), hbyte _ (by omega) (by omega), hbyte _ (by omega) (by omega)⟩
  · exact ⟨hbyte _ (by omega) (by omega), hbyte _ (by omega) (by omega), hbyte _ (by omega) (by omega),
      hbyte _ (by omega) (by omega)⟩

theorem codePoints_ne_zero {w : S16} (h : 0 ∉ w) : 0 ∉ codePoints w := by
  intro hmem
  apply h
  rw [← unitsOf_codePoints w]
  exact List.mem_flatMap.mpr ⟨0, hmem, List.mem_singleton_self _⟩

theorem zero_notMem_wtf8 {w : S16} (h : 0 ∉ w) : 0 ∉ wtf8 w := by
  intro hmem
  rw [← wtf8_eq] at hmem
  obtain ⟨p, hp, hzero⟩ := List.mem_flatMap.mp hmem
  have hne : p ≠ 0 := fun e => codePoints_ne_zero h (e ▸ hp)
  exact zero_notMem_utf8bytes hne (codePoints_lt w p hp) hzero

theorem nonzero_quotebody (n : Nat) {arg : S16} (h : 0 ∉ arg) : 0 ∉ quotebody n arg := by
  induction arg generalizing n with
  | nil => simp [quotebody]
  | cons u arg ih =>
    rw [List.mem_cons, not_or] at h
    unfold quotebody
    split
    · exact ih _ h.2
    split
    · simp [ih 0 h.2]
    · simp [ih 0 h.2, h.1]

theorem nonzero_renderargs {args : List (S16 × S16)} (h : ∀ x ∈ args, Separator x.1 ∧ 0 ∉ x.2) :
    0 ∉ renderargs args := by
  induction args with
  | nil => simp [renderargs]
  | cons x args ih =>
    obtain ⟨w, arg⟩ := x
    obtain ⟨hx, hargs⟩ := List.forall_mem_cons.mp h
    have hw : 0 ∉ w := by
      intro hzero
      cases hx.1.2 0 hzero
    simp [renderargs, hw, nonzero_quotebody 0 hx.2, ih hargs]

theorem nonzero_render {name : S16} {args : List (S16 × S16)} (hname : 0 ∉ name)
    (hargs : ∀ x ∈ args, Separator x.1 ∧ 0 ∉ x.2) : 0 ∉ render name args := by
  simp [render, hname, nonzero_renderargs hargs]

/-- With room for the null pointer no byte is lost to it. -/
theorem storenull_eq (ptr : Nat) {argc : Nat} (h : argc + 1 ≤ 16384) (mem : S8) : storenull ptr argc mem = mem := by
  have hkeep : ∀ i, (argc + 1) * ptr ≤ 16384 * ptr + i :=
    fun i => Nat.le_trans (Nat.mul_le_mul_right ptr h) (Nat.le_add_right _ i)
  unfold storenull
  apply List.ext_getElem (by rw [List.length_mapIdx])
  intro i h₁ h₂
  rw [List.getElem_mapIdx, if_pos (Or.inr (hkeep i))]

/-- Every argument has two quotes and a blank. -/
theorem length_renderargs {args : List (S16 × S16)} (h : ∀ x ∈ args, Separator x.1) :
    3 * args.length ≤ (renderargs args).length := by
  induction args with
  | nil => exact Nat.le_refl 0
  | cons x args ih =>
    obtain ⟨w, arg⟩ := x
    obtain ⟨hx, hargs⟩ := List.forall_mem_cons.mp h
    have ih := ih hargs
    have hw : 0 < w.length := List.length_pos_iff.mpr hx.1
    simp only [renderargs, List.length_append, List.length_cons]
    omega

/-- For every program name and every list of arguments that fits a command line: the
    rendered command line is parsed to their bytes. -/
theorem rendered_arguments (ptr : Nat) (name : S16) (args : List (S16 × S16)) (hname : 0x22 ∉ name ∧ 0 ∉ name)
    (hargs : ∀ x ∈ args, Separator x.1 ∧ 0 ∉ x.2) (hfits : (render name args).length + 1 ≤ CMDLINE_CMD_MAX) :
    ∃ r, cmdline_to_argv8 ptr (render name args) = some r ∧ r.argc = args.length + 1 ∧
      strings 0 r.argv r.mem = (name :: args.map Prod.snd).map wtf8 := by
  obtain ⟨s, hrun, hstored⟩ := render_run 0 emit_backslash name hname.1 args fun x hx => (hargs x hx).1
  rw [funext wtf8_eq] at hstored
  have hargc : s.argv.length = args.length + 1 := by rw [hstored.length_eq]; simp
  have hroom : s.argv.length + 1 ≤ 16384 := by
    have := length_renderargs fun x hx => (hargs x hx).1
    unfold CMDLINE_CMD_MAX at hfits
    simp only [render, List.length_cons, List.length_append] at hfits
    omega
  have hmem := storenull_eq ptr hroom (s.buf ++ [0])
  refine ⟨⟨s.argv, s.buf ++ [0]⟩, by rw [cmdline_to_argv8, hrun, Option.map_some, hmem], hargc, ?_⟩
  apply strings_eq hstored
  intro b hb
  obtain ⟨w, hw, rfl⟩ := List.mem_map.mp hb
  apply zero_notMem_wtf8
  rcases List.mem_cons.mp hw with rfl | hw
  · exact hname.2
  · obtain ⟨x, hx, rfl⟩ := List.mem_map.mp hw
    exact (hargs x hx).2

/-- A program and the arguments `\"` and nothing. -/
theorem rendered_arguments_two :
    ∃ r, cmdline_to_argv8 8 (render [0x70] [([0x20], [0x5c, 0x22]), ([0x09, 0x20], [])]) = some r ∧ r.argc = 3 ∧
      strings 0 r.argv r.mem = [[0x70], [0x5c, 0x22], []] := by
  refine rendered_arguments 8 [0x70] [([0x20], [0x5c, 0x22]), ([0x09, 0x20], [])] ⟨by decide, by decide⟩ ?_ (by decide)
  simp only [List.forall_mem_cons, Separator]
  exact ⟨⟨⟨List.cons_ne_nil _ _, rfl, List.forall_mem_nil _⟩, by decide⟩,
    ⟨⟨List.cons_ne_nil _ _, rfl, rfl, List.forall_mem_nil _⟩, by decide⟩, List.forall_mem_nil _⟩

end GnuWindows.PkgConfig
