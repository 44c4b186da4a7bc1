/-
  GnuWindows.Alias.Arguments — the command line that an alias passes on (`findargs`,
  `aliasmain`).

  Two texts are put together without a parser: the replacement command, and the rest of
  the original command line from where `findargs` ends `argv[0]`. It ends it where the
  parser does. As built, nothing is put between the two texts. After a name without
  quotes the rest starts with a blank, but after a closing quote the next argument can
  follow directly, and then it is one with the last token of the command.

  Proved:
  - `argchars_findargs`: the arguments after `argv[0]` are those of what `findargs` gives.
  - `argchars_spliced`, `argchars_touching`: the arguments of the two texts together.
  - `passes_arguments_iff`: exactly when the process gets the arguments.
-/
import GnuWindows.Alias.Main
import GnuWindows.PkgConfig.Outside

namespace GnuWindows.Alias

open GnuWindows.Lib.Utf
open GnuWindows.PkgConfig (S16 blank argchars outsideargs Ends Cmdmode)

/-! ## The replacement command -/

/-- No blank, quote or backslash. -/
def Token (tok : S16) : Prop := tok ≠ [] ∧ ∀ u ∈ tok, u ≠ 0 ∧ blank u.toNat = false ∧ u ≠ 0x22 ∧ u ≠ 0x5c

/-- With single spaces between them. -/
def joined : List S16 → S16
  | [] => []
  | [tok] => tok
  | tok :: toks => tok ++ 0x20 :: joined toks

structure Command where
  argv0 : S16
  args : List S16
  tokens : ∀ tok ∈ argv0 :: args, Token tok

def Command.argv (c : Command) : List S16 := c.argv0 :: c.args

def Command.text (c : Command) : S16 := joined c.argv

/-- The first argument is in quotes, and after its closing quote there is no blank. -/
def touches (L : S16) : Bool :=
  match L with
  | 0x22 :: s =>
    match s.dropWhile (· ≠ 0x22) with
    | _ :: u :: _ => !blank u.toNat
    | _ => false
  | _ => false

/-- The arguments are the tokens, and those after the first of the original command line. -/
def Passed (c : Command) (L new : S16) : Prop :=
  ∃ name args, argchars L = some (name :: args) ∧ argchars new = some (c.argv.map codePoints ++ args)

/-! ## Where argv[0] ends -/

theorem endquoted_closed {name : S16} (h : 0x22 ∉ name) (t : S16) : endquoted (name ++ 0x22 :: t) = t := by
  induction name with
  | nil => rfl
  | cons c name ih =>
    rw [List.mem_cons, not_or] at h
    rw [List.cons_append, endquoted, if_neg (Ne.symm h.1), ih h.2]

theorem endquoted_open {name : S16} (h : 0x22 ∉ name) : endquoted name = [] := by
  induction name with
  | nil => rfl
  | cons c name ih =>
    rw [List.mem_cons, not_or] at h
    rw [endquoted, if_neg (Ne.symm h.1), ih h.2]

theorem blank_iff (u : UInt16) : blank u.toNat = true ↔ u = 0x09 ∨ u = 0x20 := by
  rw [blank, Bool.or_eq_true, beq_iff_eq, beq_iff_eq, ← UInt16.toNat_inj, ← UInt16.toNat_inj]
  rfl

theorem endunquoted_split (s : S16) :
    ∃ w, s = w ++ endunquoted s ∧ (∀ u ∈ w, blank u.toNat = false) ∧ Ends (endunquoted s) := by
  induction s with
  | nil => exact ⟨[], rfl, by simp, by rintro u ⟨⟩⟩
  | cons c s ih =>
    obtain ⟨w, hs, hw, hends⟩ := ih
    rw [endunquoted]
    split
    · rename_i hc
      refine ⟨[], rfl, by simp, ?_⟩
      rintro u ⟨⟩
      exact (blank_iff c).mpr hc
    · rename_i hc
      refine ⟨c :: w, by rw [List.cons_append, ← hs], ?_, hends⟩
      rw [← blank_iff, Bool.not_eq_true] at hc
      exact List.forall_mem_cons.mpr ⟨hc, hw⟩

/-- Without a quote at its start, with both quotes, or with one only. -/
theorem findargs_cases (L : S16) :
    (∃ w, L = w ++ findargs L ∧ (∀ u ∈ w.head?, u ≠ 0x22) ∧ (∀ u ∈ w, blank u.toNat = false) ∧ Ends (findargs L)) ∨
      (∃ name, 0x22 ∉ name ∧ L = 0x22 :: (name ++ 0x22 :: findargs L)) ∨
      ∃ name, 0x22 ∉ name ∧ L = 0x22 :: name ∧ findargs L = [] := by
  by_cases hq : ∃ s, L = 0x22 :: s
  · obtain ⟨s, rfl⟩ := hq
    right
    show (∃ name, 0x22 ∉ name ∧ 0x22 :: s = 0x22 :: (name ++ 0x22 :: endquoted s)) ∨
      ∃ name, 0x22 ∉ name ∧ 0x22 :: s = 0x22 :: name ∧ endquoted s = []
    by_cases hs : 0x22 ∈ s
    · obtain ⟨name, t, rfl, hname⟩ := List.eq_append_cons_of_mem hs
      exact Or.inl ⟨name, hname, by rw [endquoted_closed hname]⟩
    · exact Or.inr ⟨s, hs, rfl, endquoted_open hs⟩
  · left
    have hfind : findargs L = endunquoted L := by
      unfold findargs
      split
      · exact absurd ⟨_, rfl⟩ hq
      · rfl
    obtain ⟨w, hL, hw, hends⟩ := endunquoted_split L
    rw [hfind]
    refine ⟨w, hL, ?_, hw, hends⟩
    intro u hu
    cases w with
    | nil => cases hu
    | cons c w =>
      cases hu
      rintro rfl
      exact hq ⟨_, hL⟩

theorem findargs_suffix (L : S16) : findargs L <:+ L := by
  rcases findargs_cases L with ⟨w, hL, _⟩ | ⟨name, _, hL⟩ | ⟨name, _, _, hnil⟩
  · exact ⟨w, hL.symm⟩
  · exact ⟨0x22 :: (name ++ [0x22]), by rw [List.cons_append, List.append_assoc]; exact hL.symm⟩
  · rw [hnil]
    exact List.nil_suffix

/-- `argv[0]` ends where the parser ends it. -/
theorem argchars_findargs {L : S16} (h : 0 ∉ L) : ∃ name, argchars L = some (name :: outsideargs (findargs L)) := by
  rcases findargs_cases L with ⟨w, hL, hq, hw, hends⟩ | ⟨name, hname, hL⟩ | ⟨name, hname, hL, hnil⟩
  · refine ⟨codePoints w, ?_⟩
    have hzero : 0 ∉ w := fun hw => h (hL ▸ List.mem_append_left _ hw)
    have hargs := PkgConfig.argchars_first hq hw hzero hends
    rwa [← hL] at hargs
  · refine ⟨codePoints name, ?_⟩
    have hzero : 0 ∉ name := fun hn => h (hL ▸ List.mem_cons_of_mem _ (List.mem_append_left _ hn))
    have hargs := PkgConfig.argchars_quoted ⟨hname, hzero⟩ (findargs L)
    rwa [← hL] at hargs
  · refine ⟨codePoints name, ?_⟩
    have hzero : 0 ∉ name := fun hn => h (hL ▸ List.mem_cons_of_mem _ hn)
    rw [hnil, PkgConfig.outsideargs_nil, hL, PkgConfig.argchars_open ⟨hname, hzero⟩]

theorem dropWhile_name {name : S16} (h : 0x22 ∉ name) (t : S16) :
    (name ++ t).dropWhile (· ≠ 0x22) = t.dropWhile (· ≠ 0x22) := by
  apply List.dropWhile_append_of_pos
  intro c hc
  rw [decide_eq_true_iff]
  rintro rfl
  exact h hc

/-- The rest starts with a blank, but for what touches the closing quote. -/
theorem ends_findargs (L : S16) : Ends (findargs L) ↔ touches L = false := by
  rcases findargs_cases L with ⟨w, hL, hq, _, hends⟩ | ⟨name, hname, hL⟩ | ⟨name, hname, hL, hnil⟩
  · have hhead : ∀ u ∈ L.head?, u ≠ 0x22 := by
      intro u hu
      cases w with
      | nil =>
        rintro rfl
        rw [hL] at hu
        cases hends _ hu
      | cons c w =>
        rw [hL] at hu
        exact hq u hu
    have hno : touches L = false := by
      unfold touches
      split
      · exact absurd rfl (hhead 0x22 rfl)
      · rfl
    exact ⟨fun _ => hno, fun _ => hends⟩
  · have hdrop : (name ++ 0x22 :: findargs L).dropWhile (· ≠ 0x22) = 0x22 :: findargs L := by
      rw [dropWhile_name hname, List.dropWhile_cons_of_neg (by simp)]
    rw [hL, touches, hdrop, ← hL]
    cases findargs L with
    | nil => simp [Ends]
    | cons u t => simp [Ends]
  · have hdrop := dropWhile_name hname []
    rw [List.append_nil, List.dropWhile_nil] at hdrop
    rw [hnil, hL, touches, hdrop]
    simp [Ends]

/-! ## The two texts together -/

theorem Token.stores {tok : S16} (h : Token tok) : ∀ u ∈ tok, Cmdmode.unquoted.stores u.toNat = true := by
  intro u hu
  obtain ⟨_, hb, hq, hs⟩ := h.2 u hu
  have hq : u.toNat ≠ 0x22 := fun e => hq (UInt16.toNat_inj.mp e)
  have hs : u.toNat ≠ 0x5c := fun e => hs (UInt16.toNat_inj.mp e)
  simp [Cmdmode.stores, hb, hq, hs]

theorem Token.nonzero {tok : S16} (h : Token tok) : 0 ∉ tok := fun hu => (h.2 0 hu).1 rfl

theorem ends_space (t : S16) : Ends (0x20 :: t) := by
  rintro u ⟨⟩
  rfl

/-- A command that is not all: its first token, a space, and the others. -/
theorem joined_append (tok tok' : S16) (toks : List S16) (t : S16) :
    joined (tok :: tok' :: toks) ++ t = tok ++ 0x20 :: (joined (tok' :: toks) ++ t) := by
  rw [joined, List.append_assoc, List.cons_append]
  exact List.cons_ne_nil _ _

theorem outsideargs_next {tok : S16} (h : Token tok) (s : S16) :
    outsideargs (tok ++ 0x20 :: s) = codePoints tok :: outsideargs s := by
  rw [PkgConfig.outsideargs_token h.1 h.stores h.nonzero (ends_space s), PkgConfig.outsideargs_blank rfl]

theorem outsideargs_joined {toks : List S16} (h : ∀ tok ∈ toks, Token tok) (hne : toks ≠ []) {t : S16}
    (ht : Ends t) : outsideargs (joined toks ++ t) = toks.map codePoints ++ outsideargs t := by
  induction toks with
  | nil => exact absurd rfl hne
  | cons tok toks ih =>
    obtain ⟨htok, htoks⟩ := List.forall_mem_cons.mp h
    cases toks with
    | nil => exact PkgConfig.outsideargs_token htok.1 htok.stores htok.nonzero ht
    | cons tok' toks =>
      rw [joined_append, outsideargs_next htok, ih htoks (List.cons_ne_nil _ _)]
      rfl

/-- The last token and what touches it count once. -/
theorem length_outsideargs_joined {toks : List S16} (h : ∀ tok ∈ toks, Token tok) (hne : toks ≠ []) {u : UInt16}
    (hu : blank u.toNat = false) (t : S16) :
    (outsideargs (joined toks ++ u :: t)).length + 1 = toks.length + (outsideargs (u :: t)).length := by
  induction toks with
  | nil => exact absurd rfl hne
  | cons tok toks ih =>
    obtain ⟨htok, htoks⟩ := List.forall_mem_cons.mp h
    cases toks with
    | nil =>
      have htouch := PkgConfig.length_outsideargs_touching htok.stores hu t
      rw [joined, htouch, List.length_singleton, Nat.add_comm]
    | cons tok' toks =>
      have ih := ih htoks (List.cons_ne_nil _ _)
      rw [joined_append, outsideargs_next htok, List.length_cons, List.length_cons]
      omega

theorem argchars_next {tok : S16} (h : Token tok) {t : S16} (ht : Ends t) :
    argchars (tok ++ t) = some (codePoints tok :: outsideargs t) := by
  apply PkgConfig.argchars_first _ _ h.nonzero ht
  · intro u hu
    exact (h.2 u (List.mem_of_mem_head? hu)).2.2.1
  · exact fun u hu => (h.2 u hu).2.1

/-- Before a blank, or nothing, the tokens are arguments of their own. -/
theorem argchars_spliced (c : Command) {t : S16} (ht : Ends t) :
    argchars (c.text ++ t) = some (c.argv.map codePoints ++ outsideargs t) := by
  obtain ⟨argv0, args, tokens⟩ := c
  obtain ⟨h0, hargs⟩ := List.forall_mem_cons.mp tokens
  simp only [Command.text, Command.argv]
  cases args with
  | nil => exact argchars_next h0 ht
  | cons tok toks =>
    rw [joined_append, argchars_next h0 (ends_space _), PkgConfig.outsideargs_blank rfl,
      outsideargs_joined hargs (List.cons_ne_nil _ _) ht]
    rfl

theorem codePoints_inj {v w : S16} (h : codePoints v = codePoints w) : v = w := by
  rw [← unitsOf_codePoints v, h, unitsOf_codePoints]

/-- Before anything else the last of them is not: the only token gets longer, and of more
    tokens there is one argument less. -/
theorem argchars_touching (c : Command) {u : UInt16} (hu : blank u.toNat = false) {t : S16} (hzero : 0 ∉ u :: t) :
    argchars (c.text ++ u :: t) ≠ some (c.argv.map codePoints ++ outsideargs (u :: t)) := by
  obtain ⟨argv0, args, tokens⟩ := c
  obtain ⟨h0, hargs⟩ := List.forall_mem_cons.mp tokens
  simp only [Command.text, Command.argv]
  intro h
  cases args with
  | nil =>
    obtain ⟨w, hsplit, hw, hends⟩ := endunquoted_split t
    have hlong := PkgConfig.argchars_first (w := argv0 ++ u :: w) (t := endunquoted t) ?_ ?_ ?_ hends
    · rw [joined, hsplit, ← List.cons_append, ← List.append_assoc, hlong] at h
      have hsame := codePoints_inj (List.cons.inj (Option.some.inj h)).1
      exact absurd (List.append_right_eq_self.mp hsame) (List.cons_ne_nil _ _)
    · intro x hx
      rw [List.head?_append_of_ne_nil _ h0.1] at hx
      exact (h0.2 x (List.mem_of_mem_head? hx)).2.2.1
    · intro x hx
      rcases List.mem_append.mp hx with hx | hx
      · exact (h0.2 x hx).2.1
      rcases List.mem_cons.mp hx with rfl | hx
      · exact hu
      · exact hw x hx
    · intro hx
      rcases List.mem_append.mp hx with hx | hx
      · exact h0.nonzero hx
      · rw [hsplit, ← List.cons_append] at hzero
        exact hzero (List.mem_append_left _ hx)
  | cons tok toks =>
    rw [joined_append, argchars_next h0 (ends_space _), PkgConfig.outsideargs_blank rfl] at h
    have hlen := congrArg List.length (Option.some.inj h)
    have hcount := length_outsideargs_joined hargs (List.cons_ne_nil _ _) hu t
    simp only [List.length_cons, List.length_append, List.length_map] at hlen hcount
    omega

/-! ## The call -/

theorem append_fits {b : C16buf} {s : S16} (h : b.buf.length + s.length ≤ b.cap) :
    (append b s).buf = b.buf ++ s ∧ (append b s).err = b.err := by
  have hroom : ¬ b.cap - b.buf.length < s.length := by omega
  constructor
  · simp only [append, if_neg hroom, List.take_length]
  · simp only [append, decide_eq_false hroom, Bool.or_false]

theorem append_cut {b : C16buf} {s : S16} (h : b.cap < b.buf.length + s.length ∨ b.err = true) :
    (append b s).err = true := by
  simp only [append, Bool.or_eq_true, decide_eq_true_iff]
  have := b.fits
  rcases h with h | h
  · exact Or.inr (by omega)
  · exact Or.inl h

/-- Both texts with the terminator, or an error. -/
theorem cmdbuf_eq (win : Win) (CMD : S16) :
    (cmdbuf win CMD).err = decide (MAX_CMDLINE < (CMD ++ findargs win.commandline).length + 1) ∧
      ((cmdbuf win CMD).err = false → (cmdbuf win CMD).buf = CMD ++ findargs win.commandline ++ [0]) := by
  have hempty : (newbuf MAX_CMDLINE).buf = [] := rfl
  by_cases hcmd : MAX_CMDLINE < CMD.length
  · have hcut : (append (newbuf MAX_CMDLINE) CMD).err = true :=
      append_cut (Or.inl (by rw [hempty, List.length_nil, Nat.zero_add]; exact hcmd))
    have herr : (cmdbuf win CMD).err = true := append_cut (Or.inr hcut)
    refine ⟨?_, fun h => by rw [herr] at h; cases h⟩
    rw [herr, List.length_append, eq_comm, decide_eq_true_iff]
    omega
  · have hfits : (newbuf MAX_CMDLINE).buf.length + CMD.length ≤ (newbuf MAX_CMDLINE).cap := by
      rw [hempty, List.length_nil, Nat.zero_add]
      exact Nat.not_lt.mp hcmd
    obtain ⟨hbuf, herr⟩ := append_fits hfits
    rw [hempty, List.nil_append] at hbuf
    by_cases hall : MAX_CMDLINE < (CMD ++ findargs win.commandline).length + 1
    · have hcut : (cmdbuf win CMD).err = true := by
        refine append_cut (Or.inl ?_)
        rw [hbuf, List.length_append, ← Nat.add_assoc, ← List.length_append]
        exact hall
      refine ⟨by rw [hcut, decide_eq_true hall], fun h => by rw [hcut] at h; cases h⟩
    · have hwhole : (append (newbuf MAX_CMDLINE) CMD).buf.length + (findargs win.commandline ++ [0]).length ≤
          (append (newbuf MAX_CMDLINE) CMD).cap := by
        rw [hbuf, List.length_append, ← Nat.add_assoc, ← List.length_append]
        exact Nat.not_lt.mp hall
      obtain ⟨hbuf', herr'⟩ := append_fits hwhole
      refine ⟨?_, fun _ => ?_⟩
      · rw [cmdbuf, herr', herr, decide_eq_false hall]
        rfl
      · rw [cmdbuf, hbuf', hbuf, List.append_assoc]

theorem cstring_eq {s : S16} (h : 0 ∉ s) : cstring (s ++ [0]) = s := by
  rw [cstring, List.takeWhile_append_of_pos, List.takeWhile_cons_of_neg (by simp), List.append_nil]
  intro u hu
  rw [decide_eq_true_iff]
  rintro rfl
  exact h hu

/-- What a process is started with. -/
theorem aliasmain_calls {win : Win} {EXE CMD : S16} {call : S16 × S16} (h : call ∈ (aliasmain win EXE CMD).calls) :
    (cmdbuf win CMD).err = false ∧ call.2 = cstring (cmdbuf win CMD).buf := by
  unfold aliasmain at h
  split at h
  · cases h
  simp only at h
  split at h
  · cases h
  split at h
  · cases h
  · rename_i herr
    rw [Bool.not_eq_true] at herr
    refine ⟨herr, ?_⟩
    split at h
    · rw [List.mem_singleton.mp h]
    · rw [List.mem_singleton.mp h]

theorem call_text {win : Win} {EXE CMD : S16} (hCMD : 0 ∉ CMD) (hL : 0 ∉ win.commandline) {call : S16 × S16}
    (h : call ∈ (aliasmain win EXE CMD).calls) :
    call.2 = CMD ++ findargs win.commandline ∧ (CMD ++ findargs win.commandline).length + 1 ≤ MAX_CMDLINE := by
  obtain ⟨herr, hcall⟩ := aliasmain_calls h
  obtain ⟨hfits, hbuf⟩ := cmdbuf_eq win CMD
  have hzero : 0 ∉ CMD ++ findargs win.commandline := by
    intro hmem
    rcases List.mem_append.mp hmem with hmem | hmem
    · exact hCMD hmem
    · exact hL ((findargs_suffix _).mem hmem)
  rw [hcall, hbuf herr, cstring_eq hzero]
  rw [herr, eq_comm, decide_eq_false_iff_not] at hfits
  exact ⟨rfl, Nat.not_lt.mp hfits⟩

theorem nonzero_joined {toks : List S16} (h : ∀ tok ∈ toks, Token tok) : 0 ∉ joined toks := by
  induction toks with
  | nil => exact List.not_mem_nil
  | cons tok toks ih =>
    obtain ⟨htok, htoks⟩ := List.forall_mem_cons.mp h
    cases toks with
    | nil => exact htok.nonzero
    | cons tok' toks =>
      rw [joined]
      · simp [htok.nonzero, ih htoks]
      · exact List.cons_ne_nil _ _

/-- For every replacement command and every original command line: the process that is
    started gets the tokens and the arguments exactly when none touches the closing quote
    of the name; and none is started when the new command line does not fit. -/
theorem passes_arguments_iff (win : Win) (EXE : S16) (c : Command) (hL : 0 ∉ win.commandline) :
    (∀ call ∈ (aliasmain win EXE c.text).calls,
      Passed c win.commandline call.2 ↔ touches win.commandline = false) ∧
      (MAX_CMDLINE < (c.text ++ findargs win.commandline).length + 1 →
        (aliasmain win EXE c.text).calls = []) := by
  have hCMD : 0 ∉ c.text := nonzero_joined c.tokens
  constructor
  · intro call hcall
    obtain ⟨hnew, _⟩ := call_text hCMD hL hcall
    obtain ⟨name, hname⟩ := argchars_findargs hL
    rw [← ends_findargs, hnew]
    constructor
    · intro hpassed
      obtain ⟨name', args, hargs, hpassed⟩ := hpassed
      obtain ⟨_, rfl⟩ := List.cons.inj (Option.some.inj (hname.symm.trans hargs))
      -- otherwise it starts with what is no blank
      by_contra hends
      have hzero : 0 ∉ findargs win.commandline := fun hmem => hL ((findargs_suffix _).mem hmem)
      revert hends hpassed hzero
      cases findargs win.commandline with
      | nil =>
        intro _ hends _
        exact hends (by rintro u ⟨⟩)
      | cons u t =>
        intro hpassed hends hzero
        have hu : blank u.toNat = false := by
          rw [← Bool.not_eq_true]
          intro hu
          exact hends (by rintro _ ⟨⟩; exact hu)
        exact argchars_touching c hu hzero hpassed
    · intro hends
      exact ⟨name, _, hname, argchars_spliced c hends⟩
  · intro hlong
    rw [List.eq_nil_iff_forall_not_mem]
    intro call hcall
    have := (call_text hCMD hL hcall).2
    omega

/-- An alias that is called by this command line. -/
def called (L : S16) : Win where
  virtualalloc := true
  modulefilename := [0x43, 0x3a, 0x5c, 0x73, 0x68, 0x2e, 0x65, 0x78, 0x65]
  fullpathname := fun path _ => (path.length, path ++ [0])
  commandline := L
  createprocess := fun _ _ => some 0

/-- `busybox sh` -/
def busyboxsh : Command where
  argv0 := [0x62, 0x75, 0x73, 0x79, 0x62, 0x6f, 0x78]
  args := [[0x73, 0x68]]
  tokens := by simp [Token, blank]

/-- `sh -c` -/
theorem passes_arguments_iff_blank :
    (∀ call ∈ (aliasmain (called [0x73, 0x68, 0x20, 0x2d, 0x63]) [0x43, 0x3a, 0x62] busyboxsh.text).calls,
      Passed busyboxsh [0x73, 0x68, 0x20, 0x2d, 0x63] call.2 ↔ touches [0x73, 0x68, 0x20, 0x2d, 0x63] = false) ∧
      (MAX_CMDLINE < (busyboxsh.text ++ findargs [0x73, 0x68, 0x20, 0x2d, 0x63]).length + 1 →
        (aliasmain (called [0x73, 0x68, 0x20, 0x2d, 0x63]) [0x43, 0x3a, 0x62] busyboxsh.text).calls = []) :=
  passes_arguments_iff (called [0x73, 0x68, 0x20, 0x2d, 0x63]) [0x43, 0x3a, 0x62] busyboxsh (by decide)

/-- From `"sh"-c` the process gets `busybox sh-c`. -/
theorem touching_argument_lost :
    (aliasmain (called [0x22, 0x73, 0x68, 0x22, 0x2d, 0x63]) [0x43, 0x3a, 0x62] busyboxsh.text).calls =
        [([0x43, 0x3a, 0x62], [0x62, 0x75, 0x73, 0x79, 0x62, 0x6f, 0x78, 0x20, 0x73, 0x68, 0x2d, 0x63])] ∧
      ¬ Passed busyboxsh [0x22, 0x73, 0x68, 0x22, 0x2d, 0x63]
        [0x62, 0x75, 0x73, 0x79, 0x62, 0x6f, 0x78, 0x20, 0x73, 0x68, 0x2d, 0x63] := by
  refine ⟨by decide, ?_⟩
  rintro ⟨name, args, hargs, hpassed⟩
  have hname : argchars [0x22, 0x73, 0x68, 0x22, 0x2d, 0x63] =
      some (codePoints [0x73, 0x68] :: outsideargs [0x2d, 0x63]) :=
    @PkgConfig.argchars_quoted [0x73, 0x68] ⟨by decide, by decide⟩ [0x2d, 0x63]
  rw [hname] at hargs
  obtain ⟨_, rfl⟩ := List.cons.inj (Option.some.inj hargs)
  exact argchars_touching busyboxsh rfl (by decide) hpassed

end GnuWindows.Alias
