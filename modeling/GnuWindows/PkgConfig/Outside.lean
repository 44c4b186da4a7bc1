/-
  GnuWindows.PkgConfig.Outside — a command line argument by argument (`cmdline_to_argv8`).

  What is in the buffer before an argument has no part in how the units after it are read.
  So the arguments of a command line are those of the two sides of a blank that is outside
  of an argument, one after the other.

  Proved:
  - `run_after`: starts and strings in front of a state are in front of its result.
  - `argchars_first`, `outsideargs_token`: an argument, and those of what follows it.
  - `length_outsideargs_touching`: an argument that touches the next is one with it.
-/
import GnuWindows.PkgConfig.Cmdargs

namespace GnuWindows.PkgConfig

open GnuWindows.Lib.BoundedStack (Next)
open GnuWindows.Lib.Utf

/-! ## What is in front -/

section

variable {α : Type} {emit : Nat → List α} {zero bs : α}

/-- The state with starts and strings in front of its own. -/
def Cmdstate.after (argv : List Nat) (buf : List α) (s : Cmdstate α) : Cmdstate α :=
  { s with argv := argv ++ s.argv.map (buf.length + ·), buf := buf ++ s.buf }

theorem slashturn_after (argv₀ : List Nat) (buf₀ : List α) {s : Cmdstate α} (h : Cmdinv bs s)
    (hs : s.state.inslashes = true) (back : Cmdmode) (c : Nat) (cmd : S16) :
    slashturn emit (s.after argv₀ buf₀) back c cmd =
      (slashturn emit s back c cmd).map (·.after argv₀ buf₀) (Option.map (·.after argv₀ buf₀)) := by
  obtain ⟨hpos, pre, hbuf, _⟩ := h.slashes hs
  obtain ⟨_, argv, state, slash, buf⟩ := s
  simp only at hpos hbuf
  have hcount : (1 + slash) >>> 1 ≤ buf.length := by
    rw [Nat.shiftRight_eq_div_pow, hbuf, List.length_append, List.length_replicate]
    omega
  generalize hk : (1 + slash) >>> 1 = count at hcount
  have hroom : ¬ (buf₀ ++ buf).length < count := by
    rw [List.length_append]
    omega
  have htake : (buf₀ ++ buf).take ((buf₀ ++ buf).length - count) = buf₀ ++ buf.take (buf.length - count) := by
    rw [List.length_append, Nat.add_sub_assoc hcount, List.take_length_add_append]
  simp only [slashturn, Cmdstate.after, hk]
  by_cases hq : c = 0x22
  · simp only [if_pos hq, if_neg hroom, if_neg (Nat.not_lt.mpr hcount), htake]
    by_cases hodd : slash &&& 1 = 1
    · simp only [if_pos hodd, Next.map, List.append_assoc]
    · simp only [if_neg hodd, Next.map]
  · simp only [if_neg hq]
    by_cases hs : c = 0x5c
    · simp only [if_pos hs, Next.map, List.append_assoc]
    · simp only [if_neg hs, Next.map]

/-- No turn looks at what is in front. -/
theorem cmdturn_after (argv₀ : List Nat) (buf₀ : List α) {s : Cmdstate α} (h : Cmdinv bs s) :
    cmdturn emit zero (s.after argv₀ buf₀) =
      (cmdturn emit zero s).map (·.after argv₀ buf₀) (Option.map (·.after argv₀ buf₀)) := by
  obtain ⟨cmd, argv, state, slash, buf⟩ := s
  cases cmd with
  | nil => rfl
  | cons u cmd =>
    cases state with
    | slashes => exact slashturn_after argv₀ buf₀ h rfl .unquoted _ _
    | quotedslashes => exact slashturn_after argv₀ buf₀ h rfl .quoted _ _
    | outside | unquoted | quoted | exit | begin0 | unquoted0 | quoted0 =>
      simp only [cmdturn, Cmdstate.after]
      split_ifs
      all_goals simp only [Next.map, List.length_append, List.map_append, List.map_cons, List.map_nil,
        List.append_assoc]

theorem run_after (hbs : emit 0x5c = [bs]) (argv₀ : List Nat) (buf₀ : List α) {s : Cmdstate α} (h : Cmdinv bs s) :
    (cmdMachine emit zero).run (s.after argv₀ buf₀) =
      ((cmdMachine emit zero).run s).map (·.after argv₀ buf₀) :=
  (cmdMachine emit zero).run_image (cmdMachine emit zero) (I := Cmdinv bs) (·.after argv₀ buf₀)
    (Option.map (·.after argv₀ buf₀)) (fun _ s' h hs => (cmdturn_inv hbs h).2 s' hs)
    (fun _ h => cmdturn_after argv₀ buf₀ h) s h

theorem run_same {s s' : Cmdstate α} (h : cmdturn emit zero s = cmdturn emit zero s') :
    (cmdMachine emit zero).run s = (cmdMachine emit zero).run s' := by
  cases hs : cmdturn emit zero s' with
  | go x => rw [run_turn hs, run_turn (h.trans hs)]
  | stop r => rw [(cmdMachine emit zero).run_stop hs, (cmdMachine emit zero).run_stop (h.trans hs)]

/-- What is no blank starts an argument, and is read as if inside of it. -/
theorem cmdturn_outside {u : UInt16} {cmd : S16} (h : blank (takechar u cmd).1 = false) (argv : List Nat)
    (slash : Nat) (buf : List α) :
    cmdturn emit zero ⟨u :: cmd, argv, .outside, slash, buf⟩ =
      cmdturn emit zero ⟨u :: cmd, argv ++ [buf.length], .unquoted, slash, buf⟩ := by
  simp only [cmdturn, h, Bool.false_eq_true, if_false]

theorem cmdturn_begin {u : UInt16} {cmd : S16} (hb : blank (takechar u cmd).1 = false)
    (hq : (takechar u cmd).1 ≠ 0x22) (argv : List Nat) (slash : Nat) (buf : List α) :
    cmdturn emit zero ⟨u :: cmd, argv, .begin0, slash, buf⟩ =
      cmdturn emit zero ⟨u :: cmd, argv, .unquoted0, slash, buf⟩ := by
  simp only [cmdturn, hb, hq, Bool.false_eq_true, if_false]

theorem blank_takechar {u : UInt16} (h : blank u.toNat = false) (cmd : S16) : blank (takechar u cmd).1 = false := by
  have hstores : Cmdmode.unquoted0.stores u.toNat = true := by
    rw [Cmdmode.stores, h]
    rfl
  have hstores := stores_takechar hstores cmd
  rwa [Cmdmode.stores, Bool.not_eq_true'] at hstores

end

/-! ## Outside of an argument -/

/-- The strings at the end of the run from here. -/
def argsfrom (s : Cmdstate Nat) : Option (List (List Nat)) :=
  ((cmdMachine (fun c => [c]) 0).run s).map fun r => strings 0 r.argv (r.buf ++ [0])

/-- The arguments of what follows an argument. -/
def outsideargs (cmd : S16) : List (List Nat) := (argsfrom ⟨cmd, [], .outside, 0, []⟩).getD []

/-- A blank or nothing follows an argument. -/
def Ends (t : S16) : Prop := ∀ u ∈ t.head?, blank u.toNat = true

/-- Arguments that are in front, with their terminators. -/
def Front (argv : List Nat) (buf : List Nat) (args : List (List Nat)) : Prop :=
  List.Forall₂ (Stored 0 buf) argv args ∧ ∀ s ∈ args, 0 ∉ s

theorem front_nil : Front [] [] [] := ⟨.nil, by simp⟩

/-- One more argument. -/
theorem Front.snoc {argv buf : List Nat} {args : List (List Nat)} (h : Front argv buf args) {s : List Nat}
    (hs : 0 ∉ s) : Front (argv ++ [buf.length]) (buf ++ s ++ [0]) (args ++ [s]) := by
  refine ⟨Stored.snoc h.1 s, fun x hx => ?_⟩
  rcases List.mem_append.mp hx with hx | hx
  · exact h.2 x hx
  · rw [List.mem_singleton.mp hx]
    exact hs

theorem strings_after {argv buf : List Nat} {args : List (List Nat)} (h : Front argv buf args) (r : Cmdstate Nat) :
    strings 0 (r.after argv buf).argv ((r.after argv buf).buf ++ [0]) = args ++ strings 0 r.argv (r.buf ++ [0]) := by
  have hfront : strings 0 argv (buf ++ (r.buf ++ [0])) = args :=
    strings_eq (h.1.imp fun start s hs => hs.append _) h.2
  have hown : strings 0 (r.argv.map (buf.length + ·)) (buf ++ (r.buf ++ [0])) = strings 0 r.argv (r.buf ++ [0]) := by
    unfold strings
    rw [List.map_map]
    apply List.map_congr_left
    intro k _
    rw [Function.comp_apply, List.drop_length_add_append]
  rw [strings] at hfront hown
  rw [strings, Cmdstate.after, List.map_append, List.append_assoc, hfront, hown]

theorem run_chars_after (argv buf : List Nat) {s : Cmdstate Nat} (hs : Cmdinv 0x5c s) :
    (cmdMachine (fun c => [c]) 0).run (s.after argv buf) =
      ((cmdMachine (fun c => [c]) 0).run s).map (·.after argv buf) :=
  run_after rfl argv buf hs

theorem argsfrom_after {argv buf : List Nat} {args : List (List Nat)} (h : Front argv buf args) {s : Cmdstate Nat}
    (hs : Cmdinv 0x5c s) : argsfrom (s.after argv buf) = (argsfrom s).map (args ++ ·) := by
  rw [argsfrom, run_chars_after argv buf hs, argsfrom, Option.map_map, Option.map_map]
  congr 1
  funext r
  exact strings_after h r

theorem argsfrom_same {s s' : Cmdstate Nat} (h : cmdturn (fun c => [c]) 0 s = cmdturn (fun c => [c]) 0 s') :
    argsfrom s = argsfrom s' := by
  rw [argsfrom, argsfrom, run_same h]

theorem argsfrom_turn {s s' : Cmdstate Nat} (h : cmdturn (fun c => [c]) 0 s = .go s') : argsfrom s = argsfrom s' := by
  rw [argsfrom, argsfrom, run_turn h]

theorem argsfrom_stop (argv : List Nat) (state : Cmdmode) (slash : Nat) (buf : List Nat) :
    argsfrom ⟨[], argv, state, slash, buf⟩ = some (strings 0 argv (buf ++ [0])) := by
  rw [argsfrom, cmdMachine_stop]
  rfl

/-- There always is a result. -/
theorem exists_argsfrom {s : Cmdstate Nat} (h : Cmdinv 0x5c s) : ∃ args, argsfrom s = some args := by
  have hrun : ∃ r, (cmdMachine (fun c => [c]) 0).run s = some r := by
    refine (cmdMachine (fun c => [c]) 0).run_inv (I := Cmdinv 0x5c) (Q := fun r => ∃ x, r = some x)
      (fun _ s' h hs => (@cmdturn_inv _ (fun c => [c]) 0 0x5c rfl _ h).2 s' hs) ?_ s h
    intro s r h hs
    cases r with
    | none => exact absurd hs (@cmdturn_inv _ (fun c => [c]) 0 0x5c rfl s h).1
    | some r => exact ⟨r, rfl⟩
  obtain ⟨r, hrun⟩ := hrun
  exact ⟨_, by rw [argsfrom, hrun]; rfl⟩

theorem cmdinv_fresh (cmd : S16) (state : Cmdmode) (h : state.inslashes = false) :
    Cmdinv 0x5c (⟨cmd, [], state, 0, []⟩ : Cmdstate Nat) := .plain (by simp) h

theorem argsfrom_outside {argv buf : List Nat} {args : List (List Nat)} (h : Front argv buf args) (cmd : S16) :
    argsfrom ⟨cmd, argv, .outside, 0, buf⟩ = some (args ++ outsideargs cmd) := by
  have hinv := cmdinv_fresh cmd .outside rfl
  obtain ⟨rest, hrest⟩ := exists_argsfrom hinv
  have hafter := argsfrom_after h hinv
  rw [Cmdstate.after, List.map_nil, List.append_nil, List.append_nil, hrest] at hafter
  rw [hafter, outsideargs, hrest]
  rfl

theorem outsideargs_eq (cmd : S16) : argsfrom ⟨cmd, [], .outside, 0, []⟩ = some (outsideargs cmd) :=
  argsfrom_outside front_nil cmd

theorem outsideargs_nil : outsideargs [] = [] := by
  rw [outsideargs, argsfrom_stop]
  rfl

theorem outsideargs_blank {u : UInt16} (hu : blank u.toNat = true) (cmd : S16) :
    outsideargs (u :: cmd) = outsideargs cmd := by
  have hturn : cmdturn (fun c => [c]) 0 (⟨u :: cmd, [], .outside, 0, []⟩ : Cmdstate Nat) =
      .go ⟨cmd, [], .outside, 0, []⟩ := by
    simp only [cmdturn, takechar_blank hu, hu, if_true]
  rw [outsideargs, argsfrom_turn hturn, outsideargs]

/-! ## Argument by argument -/

theorem ends_not_low {t : S16} (h : Ends t) : ∀ lo ∈ t.head?, ¬ IsLow lo := by
  intro u hu hlow
  have hb := h u hu
  rw [blank, Bool.or_eq_true, beq_iff_eq, beq_iff_eq] at hb
  have := hlow.1
  omega

theorem codePoints_flatMap (w : S16) : ((codePoints w).flatMap fun c => [c]) = codePoints w :=
  List.flatMap_singleton' _

/-- An argument without quotes, to what ends it. -/
theorem argsfrom_unquoted {state : Cmdmode} (hstate : state = .unquoted ∨ state = .unquoted0) {w t : S16}
    (hw : ∀ u ∈ w, state.stores u.toNat = true) (hzero : 0 ∉ w) (ht : Ends t) {argv buf : List Nat}
    {args : List (List Nat)} (h : Front argv buf args) :
    argsfrom ⟨w ++ t, argv ++ [buf.length], state, 0, buf⟩ = some (args ++ codePoints w :: outsideargs t) := by
  have hsnoc := h.snoc (codePoints_ne_zero hzero)
  have hrun : argsfrom ⟨w ++ t, argv ++ [buf.length], state, 0, buf⟩ =
      argsfrom ⟨t, argv ++ [buf.length], state, 0, buf ++ codePoints w⟩ := by
    rw [argsfrom, stores_run hw (ends_not_low ht), codePoints_flatMap, argsfrom]
  rw [hrun]
  cases t with
  | nil => rw [argsfrom_stop, strings_eq hsnoc.1 hsnoc.2, outsideargs_nil]
  | cons u t =>
    have hu : blank u.toNat = true := ht u rfl
    have hend : cmdturn (fun c => [c]) 0 ⟨u :: t, argv ++ [buf.length], state, 0, buf ++ codePoints w⟩ =
        .go ⟨t, argv ++ [buf.length], .outside, 0, buf ++ codePoints w ++ [0]⟩ := by
      rcases hstate with rfl | rfl
      · simp only [cmdturn, takechar_blank hu, hu, if_true]
      · simp only [cmdturn, takechar_blank hu, hu, if_true]
    rw [argsfrom_turn hend, argsfrom_outside hsnoc, outsideargs_blank hu, List.append_assoc, List.singleton_append]

theorem stores_blank {u : UInt16} (h : Cmdmode.unquoted.stores u.toNat = true) : blank u.toNat = false := by
  simp only [Cmdmode.stores, Bool.and_eq_true, Bool.not_eq_true'] at h
  exact h.1.1

theorem argsfrom_nonblank {u : UInt16} (h : blank u.toNat = false) (cmd : S16) :
    argsfrom ⟨u :: cmd, [], .outside, 0, []⟩ = argsfrom ⟨u :: cmd, [0], .unquoted, 0, []⟩ :=
  argsfrom_same (cmdturn_outside (blank_takechar h cmd) [] 0 [])

/-- The arguments of an argument without quotes and what follows it. -/
theorem outsideargs_token {w t : S16} (hne : w ≠ []) (hw : ∀ u ∈ w, Cmdmode.unquoted.stores u.toNat = true)
    (hzero : 0 ∉ w) (ht : Ends t) : outsideargs (w ++ t) = codePoints w :: outsideargs t := by
  have hrun := argsfrom_unquoted (Or.inl rfl) hw hzero ht front_nil
  cases w with
  | nil => exact absurd rfl hne
  | cons u w =>
    have hu := stores_blank (List.forall_mem_cons.mp hw).1
    rw [outsideargs, List.cons_append, argsfrom_nonblank hu]
    rw [List.cons_append] at hrun
    rw [show [0] = [] ++ [([] : List Nat).length] from rfl, hrun]
    rfl

theorem argchars_eq (cmd : S16) : argchars cmd = argsfrom (.start cmd) := rfl

/-- The arguments of a program name without a quote at its start and what follows it. -/
theorem argchars_first {w t : S16} (hq : ∀ u ∈ w.head?, u ≠ 0x22) (hw : ∀ u ∈ w, blank u.toNat = false)
    (hzero : 0 ∉ w) (ht : Ends t) : argchars (w ++ t) = some (codePoints w :: outsideargs t) := by
  cases w with
  | nil =>
    rw [List.nil_append, argchars_eq]
    cases t with
    | nil => rw [Cmdstate.start, argsfrom_stop, outsideargs_nil]; rfl
    | cons u t =>
      have hu : blank u.toNat = true := ht u rfl
      have hturn : cmdturn (fun c => [c]) 0 (.start (u :: t)) =
          .go ⟨t, [] ++ [([] : List Nat).length], .outside, 0, [] ++ [] ++ [0]⟩ := by
        simp only [cmdturn, Cmdstate.start, takechar_blank hu, hu, if_true]
        rfl
      rw [argsfrom_turn hturn, argsfrom_outside (front_nil.snoc (s := []) (by simp)), outsideargs_blank hu]
      rfl
  | cons u w =>
    have hstores : ∀ x ∈ u :: w, Cmdmode.unquoted0.stores x.toNat = true := by
      intro x hx
      rw [Cmdmode.stores, hw x hx]
      rfl
    have hrun := argsfrom_unquoted (Or.inr rfl) hstores hzero ht front_nil
    have hfirst : (takechar u (w ++ t)).1 ≠ 0x22 :=
      takechar_ne (by decide) (fun e => hq u rfl (UInt16.toNat_inj.mp e)) _
    have hsame := argsfrom_same (cmdturn_begin (blank_takechar (hw u List.mem_cons_self) (w ++ t)) hfirst [0] 0 [])
    rw [List.cons_append] at hrun
    rw [argchars_eq, List.cons_append, Cmdstate.start, hsame]
    exact hrun

theorem begin_quote (cmd : S16) :
    cmdturn (fun c => [c]) 0 (.start (0x22 :: cmd) : Cmdstate Nat) = .go ⟨cmd, [0], .quoted0, 0, []⟩ := by
  simp [cmdturn, Cmdstate.start, takechar_low, blank]

/-- The arguments of a quoted program name and what follows its closing quote. -/
theorem argchars_quoted {name : S16} (hname : 0x22 ∉ name ∧ 0 ∉ name) (t : S16) :
    argchars (0x22 :: (name ++ 0x22 :: t)) = some (codePoints name :: outsideargs t) := by
  have hsnoc := front_nil.snoc (codePoints_ne_zero hname.2)
  have hrun : argsfrom ⟨name ++ 0x22 :: t, [0], .quoted0, 0, []⟩ =
      argsfrom ⟨t, [0], .outside, 0, [] ++ codePoints name ++ [0]⟩ := by
    rw [argsfrom, name_run name t hname.1, codePoints_flatMap, argsfrom]
  rw [argchars_eq, argsfrom_turn (begin_quote _), hrun]
  exact argsfrom_outside hsnoc t

/-- A program name whose quote is not closed is all there is. -/
theorem argchars_open {name : S16} (hname : 0x22 ∉ name ∧ 0 ∉ name) :
    argchars (0x22 :: name) = some [codePoints name] := by
  have hsnoc := front_nil.snoc (codePoints_ne_zero hname.2)
  have hrun : argsfrom ⟨name, [0], .quoted0, 0, []⟩ = argsfrom ⟨[], [0], .quoted0, 0, [] ++ codePoints name⟩ := by
    have hall : (cmdMachine (fun c => [c]) 0).run ⟨name ++ [], [0], .quoted0, 0, []⟩ = _ :=
      stores_run (quoted0_stores hname.1) (by simp) [0] 0 []
    rw [List.append_nil, codePoints_flatMap] at hall
    rw [argsfrom, hall, argsfrom]
  rw [argchars_eq, argsfrom_turn (begin_quote _), hrun, argsfrom_stop]
  exact congrArg some (strings_eq hsnoc.1 hsnoc.2)

/-! ## An argument that touches the next -/

/-- Inside of an argument, what it is so far adds no argument. -/
theorem length_argsfrom {w t : S16} (hw : ∀ u ∈ w, Cmdmode.unquoted.stores u.toNat = true)
    (ht : ∀ lo ∈ t.head?, ¬ IsLow lo) :
    (argsfrom ⟨w ++ t, [0], .unquoted, 0, []⟩).map List.length =
      (argsfrom ⟨t, [], .unquoted, 0, []⟩).map (·.length + 1) := by
  have hrun := run_chars_after [0] (codePoints w) (cmdinv_fresh t .unquoted rfl)
  rw [Cmdstate.after, List.map_nil, List.append_nil, List.append_nil] at hrun
  rw [argsfrom, stores_run hw ht, codePoints_flatMap, List.nil_append, hrun, argsfrom, Option.map_map, Option.map_map,
    Option.map_map]
  congr 1
  funext r
  simp [strings, Cmdstate.after]

theorem length_outsideargs {u : UInt16} (h : blank u.toNat = false) (cmd : S16) :
    some (outsideargs (u :: cmd)).length = (argsfrom ⟨u :: cmd, [0], .unquoted, 0, []⟩).map List.length := by
  rw [← argsfrom_nonblank h, outsideargs_eq]
  rfl

/-- What is stored next, and what ends that. -/
theorem stores_split (s : S16) :
    ∃ w t, s = w ++ t ∧ (∀ u ∈ w, Cmdmode.unquoted.stores u.toNat = true) ∧ ∀ lo ∈ t.head?, ¬ IsLow lo := by
  induction s with
  | nil => exact ⟨[], [], rfl, by simp, by simp⟩
  | cons u s ih =>
    obtain ⟨w, t, rfl, hw, ht⟩ := ih
    by_cases hu : Cmdmode.unquoted.stores u.toNat = true
    · exact ⟨u :: w, t, rfl, List.forall_mem_cons.mpr ⟨hu, hw⟩, ht⟩
    · refine ⟨[], _, rfl, by simp, ?_⟩
      rintro lo ⟨⟩ hlow
      obtain ⟨hge, _⟩ := hlow
      have hq : u.toNat ≠ 0x22 := by omega
      have hs : u.toNat ≠ 0x5c := by omega
      exact hu (by simp [Cmdmode.stores, blank_of_lt (show 0x20 < u.toNat by omega), hq, hs])

/-- An argument directly before what is no blank is one argument with it. -/
theorem length_outsideargs_touching {w : S16} (hw : ∀ u ∈ w, Cmdmode.unquoted.stores u.toNat = true) {u : UInt16}
    (hu : blank u.toNat = false) (cmd : S16) :
    (outsideargs (w ++ u :: cmd)).length = (outsideargs (u :: cmd)).length := by
  obtain ⟨v, t, hsplit, hv, ht⟩ := stores_split (u :: cmd)
  have hboth : ∀ x ∈ w ++ v, Cmdmode.unquoted.stores x.toNat = true :=
    fun x hx => (List.mem_append.mp hx).elim (hw x) (hv x)
  have hnext := length_argsfrom hv ht
  have hall := length_argsfrom hboth ht
  rw [← hsplit] at hnext
  rw [List.append_assoc, ← hsplit] at hall
  cases w with
  | nil => rfl
  | cons x w =>
    have hx := stores_blank (List.forall_mem_cons.mp hw).1
    apply Option.some.inj
    rw [List.cons_append, length_outsideargs hx, length_outsideargs hu, hnext]
    exact hall

end GnuWindows.PkgConfig
