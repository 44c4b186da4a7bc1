/-
  GnuWindows.PkgConfig.Reread — arguments decoded again (`cmdline_to_argv8`, `towide_`).

  The parser encodes every code point of an argument, lone surrogates too; the decoder
  takes no surrogate and gives U+FFFD for each of its three bytes. So a path from the
  command line is opened under the name it was given exactly when no surrogate stands
  alone in it.

  Proved:
  - `cmdturn_image`: encoding the buffer commutes with every turn of the parser.
  - `towide_points`: what the decoder gives for the bytes of any code points.
-/
import GnuWindows.PkgConfig.Cmdargs

namespace GnuWindows.PkgConfig

open GnuWindows.Lib.BoundedStack (Next)
open GnuWindows.Lib.Utf
open GnuWindows.Lib.Transcode (Codec)

/-! ## Encoding a buffer of code points -/

section

variable {α : Type} {f : Nat → List α} {zero bs : α}

/-- The state with every code point of the buffer encoded. -/
def Cmdstate.image (f : Nat → List α) (s : Cmdstate Nat) : Cmdstate α :=
  { cmd := s.cmd, argv := s.argv.map fun k => ((s.buf.take k).flatMap f).length, state := s.state, slash := s.slash,
    buf := s.buf.flatMap f }

/-- What is stored after an argument's start does not move it. -/
theorem starts_append {argv buf : List Nat} (h : ∀ k ∈ argv, k ≤ buf.length) (l : List Nat) :
    argv.map (fun k => (((buf ++ l).take k).flatMap f).length) =
      argv.map fun k => ((buf.take k).flatMap f).length := by
  apply List.map_congr_left
  intro k hk
  rw [List.take_append_of_le_length (h k hk)]

theorem starts_take {argv buf : List Nat} {n : Nat} (h : ∀ k ∈ argv, k ≤ n) :
    argv.map (fun k => (((buf.take n).take k).flatMap f).length) =
      argv.map fun k => ((buf.take k).flatMap f).length := by
  apply List.map_congr_left
  intro k hk
  rw [List.take_take, Nat.min_eq_left (h k hk)]

theorem slashturn_image (hbs : f 0x5c = [bs]) {s : Cmdstate Nat} (h : Cmdinv 0x5c s)
    (hs : s.state.inslashes = true) (back : Cmdmode) (c : Nat) (cmd : S16) :
    slashturn f (s.image f) back c cmd =
      (slashturn (fun c => [c]) s back c cmd).map (Cmdstate.image f) (Option.map (Cmdstate.image f)) := by
  obtain ⟨hpos, pre, hbuf, hpre⟩ := h.slashes hs
  obtain ⟨_, argv, state, slash, buf⟩ := s
  simp only at hpos hbuf hpre
  have hcount : (1 + slash) >>> 1 ≤ slash := by rw [Nat.shiftRight_eq_div_pow]; omega
  generalize hk : (1 + slash) >>> 1 = count at hcount
  have hlen : buf.length = pre.length + slash := by rw [hbuf, List.length_append, List.length_replicate]
  have himage : buf.flatMap f = pre.flatMap f ++ List.replicate slash bs := by
    rw [hbuf, List.flatMap_append, List.flatMap_replicate, hbs]
    simp
  have htake : buf.take (buf.length - count) = pre ++ List.replicate (slash - count) 0x5c := by
    rw [hlen, hbuf, Nat.add_sub_assoc hcount, List.take_length_add_append, List.take_replicate, Nat.min_eq_left
      (Nat.sub_le _ _)]
  have htake' : (buf.flatMap f).take ((buf.flatMap f).length - count) =
      (buf.take (buf.length - count)).flatMap f := by
    rw [htake, himage, List.length_append, List.length_replicate, Nat.add_sub_assoc hcount,
      List.take_length_add_append, List.take_replicate, Nat.min_eq_left (Nat.sub_le _ _), List.flatMap_append,
      List.flatMap_replicate, hbs]
    simp
  have hroom : ¬ buf.length < count := by omega
  have hroom' : ¬ (buf.flatMap f).length < count := by
    rw [himage, List.length_append, List.length_replicate]
    omega
  have hstarts : ∀ k ∈ argv, k ≤ buf.length - count := by
    intro k hk
    have := hpre k hk
    omega
  have hstarts' : ∀ k ∈ argv, k ≤ (buf.take (buf.length - count)).length := by
    intro k hk
    rw [List.length_take]
    exact Nat.le_min.mpr ⟨hstarts k hk, h.starts k hk⟩
  simp only [slashturn, Cmdstate.image, hk]
  by_cases hq : c = 0x22
  · simp only [if_pos hq, if_neg hroom, if_neg hroom', htake']
    by_cases hodd : slash &&& 1 = 1
    · simp only [if_pos hodd, Next.map, Cmdstate.image, starts_append hstarts', starts_take hstarts,
        List.flatMap_append, List.flatMap_singleton]
    · simp only [if_neg hodd, Next.map, Cmdstate.image, starts_take hstarts]
  · simp only [if_neg hq]
    by_cases hs : c = 0x5c
    · simp only [if_pos hs, Next.map, Cmdstate.image, starts_append h.starts, List.flatMap_append,
        List.flatMap_singleton]
    · simp only [if_neg hs, Next.map, Cmdstate.image]

/-- Encoding the buffer commutes with every turn. -/
theorem cmdturn_image (hbs : f 0x5c = [bs]) (hzero : f 0 = [zero]) {s : Cmdstate Nat} (h : Cmdinv 0x5c s) :
    cmdturn f zero (s.image f) =
      (cmdturn (fun c => [c]) 0 s).map (Cmdstate.image f) (Option.map (Cmdstate.image f)) := by
  obtain ⟨cmd, argv, state, slash, buf⟩ := s
  cases cmd with
  | nil => rfl
  | cons u cmd =>
    cases state with
    | slashes => exact slashturn_image hbs h rfl .unquoted _ _
    | quotedslashes => exact slashturn_image hbs h rfl .quoted _ _
    | outside | unquoted | quoted | exit | begin0 | unquoted0 | quoted0 =>
      have hmore := fun l => starts_append (f := f) h.starts l
      have hlast : ∀ l, (((buf ++ l).take buf.length).flatMap f).length = (buf.flatMap f).length := by
        intro l
        rw [List.take_left']
        rfl
      simp only at hmore
      simp only [cmdturn, Cmdstate.image]
      split_ifs
      all_goals simp only [Next.map, Cmdstate.image, hmore, hlast, hzero, List.map_append, List.map_cons, List.map_nil,
        List.flatMap_append, List.flatMap_singleton, List.take_length]

end

theorem takechar_lt (u : UInt16) (cmd : S16) : (takechar u cmd).1 < 0x110000 := by
  rcases takechar_cases u cmd with h | ⟨lo, rest, c, rfl, h, _, hc, _⟩
  · have := u.toNat_lt
    rw [h]
    show u.toNat < 0x110000
    omega
  · rw [h]
    exact hc

/-- What a turn stores is a code point. -/
theorem cmdturn_points {s s' : Cmdstate Nat} (h : ∀ p ∈ s.buf, p < 0x110000)
    (hs : cmdturn (fun c => [c]) 0 s = .go s') : ∀ p ∈ s'.buf, p < 0x110000 := by
  obtain ⟨cmd, argv, state, slash, buf⟩ := s
  cases cmd with
  | nil => cases hs
  | cons u cmd =>
    have hc := takechar_lt u cmd
    have hmore : ∀ p ∈ buf ++ [(takechar u cmd).1], p < 0x110000 := by
      intro p hp
      rcases List.mem_append.mp hp with hp | hp
      · exact h p hp
      · rw [List.mem_singleton.mp hp]; exact hc
    have hend : ∀ p ∈ buf ++ [0], p < 0x110000 := by
      intro p hp
      rcases List.mem_append.mp hp with hp | hp
      · exact h p hp
      · rw [List.mem_singleton.mp hp]; decide
    have hback : ∀ n, ∀ p ∈ buf.take n, p < 0x110000 := fun n p hp => h p (List.mem_of_mem_take hp)
    have hquote : ∀ n, ∀ p ∈ buf.take n ++ [(takechar u cmd).1], p < 0x110000 := by
      intro n p hp
      rcases List.mem_append.mp hp with hp | hp
      · exact hback n p hp
      · rw [List.mem_singleton.mp hp]; exact hc
    simp only [cmdturn, slashturn] at hs
    cases state <;> simp only at hs <;> (repeat' split at hs) <;> cases hs
    all_goals first
      | exact h
      | exact hmore
      | exact hend
      | exact hback _
      | exact hquote _

/-! ## The strings -/

/-- A string of code points is cut off where its bytes are. -/
theorem takeWhile_utf8bytes (ps : List Nat) (h : ∀ p ∈ ps, p < 0x110000) :
    (ps.flatMap utf8bytes).takeWhile (· ≠ 0) = (ps.takeWhile (· ≠ 0)).flatMap utf8bytes := by
  induction ps with
  | nil => rfl
  | cons p ps ih =>
    obtain ⟨hp, hps⟩ := List.forall_mem_cons.mp h
    rw [List.flatMap_cons]
    by_cases hzero : p = 0
    · subst hzero
      rfl
    · have hne : ∀ b ∈ utf8bytes p, decide (b ≠ 0) = true := by
        intro b hb
        rw [decide_eq_true_iff]
        rintro rfl
        exact zero_notMem_utf8bytes hzero hp hb
      rw [List.takeWhile_append_of_pos hne, ih hps, List.takeWhile_cons_of_pos (by simpa using hzero),
          List.flatMap_cons]

/-- The strings that start at the images of the starts are the bytes of the strings. -/
theorem strings_image (argv : List Nat) {buf : List Nat} (h : ∀ p ∈ buf, p < 0x110000) :
    strings 0 (argv.map fun k => ((buf.take k).flatMap utf8bytes).length) (buf.flatMap utf8bytes) =
      (strings 0 argv buf).map (·.flatMap utf8bytes) := by
  unfold strings
  rw [List.map_map, List.map_map]
  apply List.map_congr_left
  intro k hk
  have hsplit : buf.flatMap utf8bytes = (buf.take k).flatMap utf8bytes ++ (buf.drop k).flatMap utf8bytes := by
    rw [← List.flatMap_append, List.take_append_drop]
  show List.takeWhile _ ((buf.flatMap utf8bytes).drop _) = _
  rw [hsplit, List.drop_left]
  exact takeWhile_utf8bytes _ fun p hp => h p (List.mem_of_mem_drop hp)

/-- For every command line with a place for the null pointer: the strings are the bytes of
    the arguments as they stand on it. -/
theorem cmdline_strings (c : Cmdline) (ptr : Nat) (hfull : overfull c.units = false) :
    ∃ args r, argchars c.units = some args ∧ cmdline_to_argv8 ptr c.units = some r ∧
      strings 0 r.argv r.mem = args.map (·.flatMap utf8bytes) ∧ ∀ ps ∈ args, ∀ p ∈ ps, p < 0x110000 := by
  have hrun : ∃ s, (cmdMachine (fun c => [c]) 0).run (.start c.units) = some s ∧ Cmdinv 0x5c s ∧ s.cmd = [] :=
    cmdMachine_run 0 rfl c.units
  obtain ⟨s, hrun, hinv, _⟩ := hrun
  have hkeeps : ∀ s s', Cmdinv 0x5c s → (cmdMachine (fun c => [c]) 0).step s = .go s' → Cmdinv 0x5c s' :=
    fun s s' h hs => (@cmdturn_inv _ (fun c => [c]) 0 0x5c rfl s h).2 s' hs
  have himage := (cmdMachine (fun c => [c]) 0).run_image (cmdMachine utf8bytes 0) (I := Cmdinv 0x5c)
    (Cmdstate.image utf8bytes) (Option.map (Cmdstate.image utf8bytes)) hkeeps
    (fun s h => cmdturn_image emit_backslash rfl h) (.start c.units) (cmdinv_start 0x5c c.units)
  rw [hrun] at himage
  have hpoints : ∀ p ∈ s.buf, p < 0x110000 := by
    obtain ⟨x, hx, hstop⟩ := (cmdMachine (fun c => [c]) 0).states_last (.start c.units)
    rw [hrun] at hstop
    have hstop : cmdturn (fun c => [c]) 0 x = .stop (some s) := hstop
    rw [← (cmdturn_stop hstop).1]
    exact (cmdMachine (fun c => [c]) 0).states_inv (I := fun s => ∀ p ∈ s.buf, p < 0x110000)
      (fun s s' h hs => cmdturn_points h hs) _ (by simp [Cmdstate.start]) x hx
  have hroom : s.argv.length + 1 ≤ 16384 := by
    have := (argc_room c himage).mpr hfull
    rwa [Cmdstate.image, List.length_map] at this
  have hend : ∀ p ∈ s.buf ++ [0], p < 0x110000 := by
    intro p hp
    rcases List.mem_append.mp hp with hp | hp
    · exact hpoints p hp
    · rw [List.mem_singleton.mp hp]; decide
  refine ⟨strings 0 s.argv (s.buf ++ [0]),
    ⟨s.argv.map fun k => ((s.buf.take k).flatMap utf8bytes).length, s.buf.flatMap utf8bytes ++ [0]⟩, ?_, ?_, ?_, ?_⟩
  · rw [argchars, hrun]; rfl
  · rw [cmdline_to_argv8]
    have hstart : (Cmdstate.start c.units : Cmdstate UInt8) = (Cmdstate.start c.units).image utf8bytes := rfl
    rw [hstart, himage, Option.map_some, Option.map_some]
    simp only [Cmdstate.image, List.length_map]
    rw [storenull_eq ptr hroom]
  · have hmem : s.buf.flatMap utf8bytes ++ [0] = (s.buf ++ [0]).flatMap utf8bytes := by
      rw [List.flatMap_append]
      rfl
    simp only
    rw [hmem, ← strings_image s.argv hend, starts_append hinv.starts]
  · intro ps hps p hp
    obtain ⟨k, _, rfl⟩ := List.mem_map.mp hps
    exact hend p (List.mem_of_mem_drop ((List.takeWhile_prefix _).subset hp))

/-- The arguments of a rendered command line. -/
theorem argchars_render (name : S16) (args : List (S16 × S16)) (hname : 0x22 ∉ name ∧ 0 ∉ name)
    (hargs : ∀ x ∈ args, Separator x.1 ∧ 0 ∉ x.2) :
    argchars (render name args) = some ((name :: args.map Prod.snd).map codePoints) := by
  have hrun : ∃ s, (cmdMachine (fun c => [c]) 0).run (.start (render name args)) = some s ∧
      List.Forall₂ (Stored 0 (s.buf ++ [0])) s.argv
        ((name :: args.map Prod.snd).map fun w => (codePoints w).flatMap fun c => [c]) :=
    render_run 0 rfl name hname.1 args fun x hx => (hargs x hx).1
  have hsame : (fun w : S16 => (codePoints w).flatMap fun c => [c]) = codePoints := by
    funext w
    exact List.flatMap_singleton' _
  rw [hsame] at hrun
  obtain ⟨s, hrun, hstored⟩ := hrun
  rw [argchars, hrun, Option.map_some]
  congr 1
  apply strings_eq hstored
  intro ps hps
  obtain ⟨w, hw, rfl⟩ := List.mem_map.mp hps
  apply codePoints_ne_zero
  rcases List.mem_cons.mp hw with rfl | hw
  · exact hname.2
  · obtain ⟨x, hx, rfl⟩ := List.mem_map.mp hw
    exact (hargs x hx).2

/-! ## Decoding again -/

theorem runes_step {s t : S8} {c : Nat} (hs : s ≠ []) (h : utf8decode_ s = ⟨t, c⟩) :
    towide.runes s = c :: towide.runes t := by
  have hdecode : towide.decode s = (t, c) := by
    show ((utf8decode_ s).tail, (utf8decode_ s).rune) = (t, c)
    rw [h]
  rw [towide.runes_cons hs, hdecode]

/-- The decoder takes no surrogate: each of its bytes is replaced. -/
theorem runes_surrogate {p : Nat} (h : IsSurrogate p) (t : S8) :
    towide.runes (utf8bytes p ++ t) =
      REPLACEMENT_CHARACTER :: REPLACEMENT_CHARACTER :: REPLACEMENT_CHARACTER :: towide.runes t := by
  obtain ⟨hlo, hhi⟩ := h
  have hb := toNat_byte (n := 224 + p / 4096) (by omega)
  have hb1 := toNat_byte (n := 128 + p / 64 % 64) (by omega)
  have hb2 := toNat_byte (n := 128 + p % 64) (by omega)
  rw [utf8bytes_eq (by omega), if_neg (by omega), if_neg (by omega), if_pos (by omega), List.cons_append,
    List.cons_append, List.singleton_append]
  have hthree : utf8decode_ (UInt8.ofNat (224 + p / 4096) :: UInt8.ofNat (128 + p / 64 % 64) ::
      UInt8.ofNat (128 + p % 64) :: t) =
      ⟨UInt8.ofNat (128 + p / 64 % 64) :: UInt8.ofNat (128 + p % 64) :: t, REPLACEMENT_CHARACTER⟩ := by
    rw [utf8decode_three _ (by omega), hb, hb1, hb2]
    have hv : (224 + p / 4096) % 16 * 4096 + (128 + p / 64 % 64) % 64 * 64 + (128 + p % 64) % 64 = p := by omega
    simp only [hv]
    rw [if_neg (by omega)]
  rw [runes_step (List.cons_ne_nil _ _) hthree,
    runes_step (List.cons_ne_nil _ _) (utf8decode_continuation (by omega) _),
    runes_step (List.cons_ne_nil _ _) (utf8decode_continuation (by omega) _)]

/-- The units that a code point comes back as. -/
def reread (p : Nat) : S16 :=
  if IsSurrogate p then [0xfffd, 0xfffd, 0xfffd] else unitsOf p

theorem runes_points (ps : List Nat) (h : ∀ p ∈ ps, p < 0x110000) :
    (towide.runes (ps.flatMap utf8bytes)).flatMap towide.encode = ps.flatMap reread := by
  induction ps with
  | nil => rw [List.flatMap_nil, Codec.runes_nil]; rfl
  | cons p ps ih =>
    obtain ⟨hp, hps⟩ := List.forall_mem_cons.mp h
    have ih := ih hps
    rw [List.flatMap_cons, List.flatMap_cons]
    by_cases hs : IsSurrogate p
    · rw [runes_surrogate hs, List.flatMap_cons, List.flatMap_cons, List.flatMap_cons, ih, reread, if_pos hs]
      rfl
    · have hrange : p < 0xd800 ∨ (0xdfff < p ∧ p < 0x110000) := by
        unfold IsSurrogate at hs
        omega
      obtain ⟨c, rfl⟩ := exists_char hrange
      have hencode : towide.encode c.toNat = unitsOf c.toNat := utf16encode_char c
      have hne : String.utf8EncodeChar c ++ ps.flatMap utf8bytes ≠ [] := by
        intro e
        exact utf8EncodeChar_ne_nil c (List.append_eq_nil_iff.mp e).1
      rw [utf8bytes_char, runes_step hne (utf8decode_encode c _), List.flatMap_cons, ih, hencode, reread, if_neg hs]

/-- For any code points: their bytes, decoded again. -/
theorem towide_points (ps : List Nat) (h : ∀ p ∈ ps, p < 0x110000) :
    towide_ (ps.flatMap utf8bytes) = some (ps.flatMap reread) := by
  rw [towide_, Codec.convert_eq, runes_points ps h]

theorem length_reread (ps : List Nat) : (ps.flatMap unitsOf).length ≤ (ps.flatMap reread).length := by
  induction ps with
  | nil => exact Nat.le_refl 0
  | cons p ps ih =>
    have hp : (unitsOf p).length ≤ (reread p).length := by
      unfold reread
      split
      · unfold unitsOf
        split <;> simp
      · exact Nat.le_refl _
    rw [List.flatMap_cons, List.flatMap_cons, List.length_append, List.length_append]
    omega

/-- The units come back exactly when there is no surrogate among the code points: a
    surrogate comes back longer. -/
theorem reread_iff (ps : List Nat) : ps.flatMap reread = ps.flatMap unitsOf ↔ ∀ p ∈ ps, ¬ IsSurrogate p := by
  induction ps with
  | nil => simp
  | cons p ps ih =>
    rw [List.flatMap_cons, List.flatMap_cons, List.forall_mem_cons, ← ih]
    by_cases hs : IsSurrogate p
    · have hle := length_reread ps
      have hunits : (unitsOf p).length = 1 := by
        obtain ⟨hlo, hhi⟩ := hs
        rw [unitsOf, if_pos (by omega)]
        rfl
      constructor
      · intro h
        have hlen := congrArg List.length h
        rw [reread, if_pos hs, List.length_append, List.length_append, hunits] at hlen
        simp only [List.length_cons, List.length_nil] at hlen
        omega
      · intro h
        exact absurd hs h.1
    · rw [reread, if_neg hs, List.append_cancel_left_eq]
      exact ⟨fun h => ⟨hs, h⟩, fun h => h.2⟩

/-- A rendered command line starts with a quote. -/
theorem overfull_render (name : S16) (args : List (S16 × S16)) : overfull (render name args) = false := by
  rw [← Bool.not_eq_true, overfull_iff, render, endsarg_cons]
  intro h
  cases h.2

/-- What the strings of a command line decode to. -/
theorem towide_arguments (ptr : Nat) (c : Cmdline) (hfull : overfull c.units = false) :
    ∃ args r, argchars c.units = some args ∧ cmdline_to_argv8 ptr c.units = some r ∧
      (strings 0 r.argv r.mem).map towide_ = args.map fun ps => some (ps.flatMap reread) := by
  obtain ⟨args, r, hargs, hr, hstrings, hpoints⟩ := cmdline_strings c ptr hfull
  refine ⟨args, r, hargs, hr, ?_⟩
  rw [hstrings, List.map_map]
  apply List.map_congr_left
  intro ps hps
  exact towide_points ps (hpoints ps hps)

/-- What the strings of a rendered command line decode to. -/
theorem towide_rendered (ptr : Nat) (name : S16) (args : List (S16 × S16)) (hname : 0x22 ∉ name ∧ 0 ∉ name)
    (hargs : ∀ x ∈ args, Separator x.1 ∧ 0 ∉ x.2) (hfits : (render name args).length + 1 ≤ CMDLINE_CMD_MAX) :
    ∃ r, cmdline_to_argv8 ptr (render name args) = some r ∧
      (strings 0 r.argv r.mem).map towide_ =
        (name :: args.map Prod.snd).map fun w => some ((codePoints w).flatMap reread) := by
  obtain ⟨chars, r, hchars, hr, htowide⟩ :=
    towide_arguments ptr ⟨render name args, nonzero_render hname.2 hargs, hfits⟩ (overfull_render name args)
  rw [argchars_render name args hname hargs] at hchars
  obtain rfl := Option.some.inj hchars
  refine ⟨r, hr, ?_⟩
  rw [htowide, List.map_map]
  rfl

/-- The strings of any command line with a place for the null pointer decode to the units
    of the arguments, but for the surrogates that were read by themselves; in a rendered
    argument these are the ones that stand alone. -/
theorem arguments_reread (ptr : Nat) :
    (∀ c : Cmdline, overfull c.units = false →
      ∃ args r, argchars c.units = some args ∧ cmdline_to_argv8 ptr c.units = some r ∧
        (strings 0 r.argv r.mem).map towide_ = args.map (fun ps => some (ps.flatMap reread)) ∧
        ∀ ps ∈ args, ps.flatMap reread = ps.flatMap unitsOf ↔ ∀ p ∈ ps, ¬ IsSurrogate p) ∧
      ∀ (name : S16) (args : List (S16 × S16)), 0x22 ∉ name ∧ 0 ∉ name → (∀ x ∈ args, Separator x.1 ∧ 0 ∉ x.2) →
        (render name args).length + 1 ≤ CMDLINE_CMD_MAX →
        ∃ r, cmdline_to_argv8 ptr (render name args) = some r ∧
          (strings 0 r.argv r.mem).map towide_ =
            (name :: args.map Prod.snd).map (fun w => some ((codePoints w).flatMap reread)) ∧
          ∀ w ∈ name :: args.map Prod.snd, (codePoints w).flatMap reread = w ↔ IsUtf16 w := by
  constructor
  · intro c hfull
    obtain ⟨args, r, hargs, hr, htowide⟩ := towide_arguments ptr c hfull
    exact ⟨args, r, hargs, hr, htowide, fun ps _ => reread_iff ps⟩
  · intro name args hname hargs hfits
    obtain ⟨r, hr, htowide⟩ := towide_rendered ptr name args hname hargs hfits
    refine ⟨r, hr, htowide, ?_⟩
    intro w _
    rw [isUtf16_iff, ← reread_iff, unitsOf_codePoints]

theorem arguments_reread_pair :
    (∃ args r, argchars [0x70, 0x20, 0x61] = some args ∧ cmdline_to_argv8 8 [0x70, 0x20, 0x61] = some r ∧
      (strings 0 r.argv r.mem).map towide_ = args.map (fun ps => some (ps.flatMap reread)) ∧
      ∀ ps ∈ args, ps.flatMap reread = ps.flatMap unitsOf ↔ ∀ p ∈ ps, ¬ IsSurrogate p) ∧
      ∃ r, cmdline_to_argv8 8 (render [0x70] [([0x20], [0xd83d, 0xde00])]) = some r ∧
        (strings 0 r.argv r.mem).map towide_ = [some [0x70], some [0xd83d, 0xde00]] ∧
        ∀ w ∈ [[0x70], [0xd83d, 0xde00]], (codePoints w).flatMap reread = w ↔ IsUtf16 w := by
  have hsep : ∀ x ∈ [(([0x20] : S16), ([0xd83d, 0xde00] : S16))], Separator x.1 ∧ 0 ∉ x.2 := by
    intro x hx
    rw [List.mem_singleton.mp hx]
    exact ⟨⟨List.cons_ne_nil _ _, List.forall_mem_singleton.mpr rfl⟩, by decide⟩
  exact ⟨(arguments_reread 8).1 ⟨[0x70, 0x20, 0x61], by decide, by decide⟩ rfl,
    (arguments_reread 8).2 [0x70] [([0x20], [0xd83d, 0xde00])] ⟨by decide, by decide⟩ hsep (by decide)⟩

/-- A path that is a lone surrogate comes back as three other units. -/
theorem surrogate_lost :
    ∃ r, cmdline_to_argv8 8 (render [0x70] [([0x20], [0xd800])]) = some r ∧
      (strings 0 r.argv r.mem).map towide_ = [some [0x70], some [0xfffd, 0xfffd, 0xfffd]] ∧
      (strings 0 r.argv r.mem).map towide_ ≠ [some [0x70], some [0xd800]] := by
  have hsep : ∀ x ∈ [(([0x20] : S16), ([0xd800] : S16))], Separator x.1 ∧ 0 ∉ x.2 := by
    intro x hx
    rw [List.mem_singleton.mp hx]
    exact ⟨⟨List.cons_ne_nil _ _, List.forall_mem_singleton.mpr rfl⟩, by decide⟩
  obtain ⟨r, hr, htowide⟩ := towide_rendered 8 [0x70] [([0x20], [0xd800])] ⟨by decide, by decide⟩ hsep (by decide)
  refine ⟨r, hr, htowide, ?_⟩
  rw [htowide]
  decide

end GnuWindows.PkgConfig
