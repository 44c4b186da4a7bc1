/-
  GnuWindows.PkgConfig.CmdlineProofs — the two halves of `argv` (`cmdline_to_argv8`).

  Pointers are stored from the bottom of `argv` and bytes from 16384 pointers on. The
  bytes always fit: a unit gives at most three. The pointers do but for one kind of
  command line, which has as many arguments as its units allow: an empty first one and
  then arguments of one unit, so that the null pointer is stored to the bytes.

  Proved:
  - `cmdturn_inv`: backslashes are only taken back where they were put.
  - `cmdturn_room`: what the units that are left allow, and when nothing of it is lost.
-/
import GnuWindows.PkgConfig.Cmdline

namespace GnuWindows.PkgConfig

open GnuWindows.Lib.BoundedStack (Next)

variable {α : Type} {emit : Nat → List α} {zero : α}

/-! ## Backslashes -/

def Cmdmode.inslashes : Cmdmode → Bool
  | .slashes | .quotedslashes => true
  | _ => false

/-- In a backslash sequence the buffer ends with its backslashes, after all starts. -/
structure Cmdinv (bs : α) (s : Cmdstate α) : Prop where
  starts : ∀ k ∈ s.argv, k ≤ s.buf.length
  slashes : s.state.inslashes = true →
    1 ≤ s.slash ∧ ∃ pre, s.buf = pre ++ List.replicate s.slash bs ∧ ∀ k ∈ s.argv, k ≤ pre.length

theorem Cmdinv.plain {bs : α} {s : Cmdstate α} (h : ∀ k ∈ s.argv, k ≤ s.buf.length)
    (hs : s.state.inslashes = false) : Cmdinv bs s :=
  ⟨h, fun ht => by rw [hs] at ht; cases ht⟩

theorem slashturn_inv {bs : α} (hbs : emit 0x5c = [bs]) {s : Cmdstate α} (h : Cmdinv bs s)
    (hs : s.state.inslashes = true) {back : Cmdmode} (hback : back.inslashes = false) (c : Nat) (cmd : S16) :
    slashturn emit s back c cmd ≠ .stop none ∧ ∀ s', slashturn emit s back c cmd = .go s' → Cmdinv bs s' := by
  obtain ⟨hpos, pre, hbuf, hpre⟩ := h.slashes hs
  have hlen : s.buf.length = pre.length + s.slash := by rw [hbuf, List.length_append, List.length_replicate]
  unfold slashturn
  split
  · have hcount : (1 + s.slash) >>> 1 ≤ s.slash := by rw [Nat.shiftRight_eq_div_pow]; omega
    simp only
    rw [if_neg (by omega)]
    -- what is left still holds every start
    have hstarts : ∀ k ∈ s.argv, k ≤ (s.buf.take (s.buf.length - (1 + s.slash) >>> 1)).length := by
      intro k hk
      have := hpre k hk
      rw [List.length_take]
      omega
    split
    · refine ⟨Next.go_ne_stop _ _, fun s' e => ?_⟩
      cases e
      refine .plain (fun k hk => ?_) hback
      rw [List.length_append]
      exact Nat.le_add_right_of_le (hstarts k hk)
    · refine ⟨Next.go_ne_stop _ _, fun s' e => ?_⟩
      cases e
      exact .plain hstarts hback
  split
  · rename_i hc
    refine ⟨Next.go_ne_stop _ _, fun s' e => ?_⟩
    cases e
    refine ⟨fun k hk => ?_, fun _ => ⟨Nat.le_add_left 1 _, pre, ?_, hpre⟩⟩
    · rw [List.length_append]; exact Nat.le_add_right_of_le (h.starts k hk)
    · rw [hc, hbs, hbuf, List.append_assoc, List.replicate_succ']
  · refine ⟨Next.go_ne_stop _ _, fun s' e => ?_⟩
    cases e
    exact .plain h.starts hback

/-- Backslashes are only taken back where they were put. -/
theorem cmdturn_inv {bs : α} (hbs : emit 0x5c = [bs]) {s : Cmdstate α} (h : Cmdinv bs s) :
    cmdturn emit zero s ≠ .stop none ∧ ∀ s', cmdturn emit zero s = .go s' → Cmdinv bs s' := by
  obtain ⟨cmd, argv, state, slash, buf⟩ := s
  cases cmd with
  | nil => exact ⟨fun h => by simp [cmdturn] at h, fun s' e => by simp [cmdturn] at e⟩
  | cons u cmd =>
    have hmore : ∀ l : List α, ∀ k ∈ argv, k ≤ (buf ++ l).length := by
      intro l k hk
      rw [List.length_append]
      exact Nat.le_add_right_of_le (h.starts k hk)
    have hnext : ∀ l : List α, ∀ k ∈ argv ++ [buf.length], k ≤ (buf ++ l).length := by
      intro l k hk
      rcases List.mem_append.mp hk with hk | hk
      · exact hmore l k hk
      · rw [List.mem_singleton.mp hk, List.length_append]; exact Nat.le_add_right _ _
    have hfirst : ∀ {c : Nat} {argv' : List Nat}, c = 0x5c → (∀ k ∈ argv', k ≤ buf.length) →
        1 ≤ 1 ∧ ∃ pre, buf ++ emit c = pre ++ List.replicate 1 bs ∧ ∀ k ∈ argv', k ≤ pre.length := by
      intro c argv' hc hk
      exact ⟨Nat.le_refl 1, buf, by rw [hc, hbs]; rfl, hk⟩
    cases state with
    | slashes => exact slashturn_inv hbs h rfl rfl _ _
    | quotedslashes => exact slashturn_inv hbs h rfl rfl _ _
    | outside =>
      simp only [cmdturn]
      have hkeep : ∀ k ∈ argv ++ [buf.length], k ≤ buf.length := by simpa using hnext []
      split
      · exact ⟨Next.go_ne_stop _ _, fun s' e => by cases e; exact .plain h.starts rfl⟩
      split
      · exact ⟨Next.go_ne_stop _ _, fun s' e => by cases e; exact .plain hkeep rfl⟩
      split
      · rename_i hc
        exact ⟨Next.go_ne_stop _ _, fun s' e => by cases e; exact ⟨hnext _, fun _ => hfirst hc hkeep⟩⟩
      · exact ⟨Next.go_ne_stop _ _, fun s' e => by cases e; exact .plain (hnext _) rfl⟩
    | unquoted | quoted =>
      simp only [cmdturn]
      repeat' split
      all_goals refine ⟨Next.go_ne_stop _ _, fun s' e => ?_⟩; cases e
      all_goals first
        | exact .plain (hmore _) rfl
        | exact .plain h.starts rfl
        | exact ⟨hmore _, fun _ => hfirst (by assumption) h.starts⟩
    | exit | begin0 | unquoted0 | quoted0 =>
      simp only [cmdturn]
      repeat' split
      all_goals refine ⟨Next.go_ne_stop _ _, fun s' e => ?_⟩; cases e
      all_goals first
        | exact .plain (hmore _) rfl
        | exact .plain h.starts rfl

/-- The loop ends at the terminator. -/
theorem cmdturn_stop {s r : Cmdstate α} (h : cmdturn emit zero s = .stop (some r)) : s = r ∧ s.cmd = [] := by
  obtain ⟨cmd, argv, state, slash, buf⟩ := s
  cases cmd with
  | nil => cases h; exact ⟨rfl, rfl⟩
  | cons u cmd =>
    exfalso
    simp only [cmdturn, slashturn] at h
    cases state <;> simp only at h <;> (repeat' split at h) <;> cases h

theorem cmdinv_start (bs : α) (cmd : S16) : Cmdinv bs (.start cmd) := .plain (by simp [Cmdstate.start]) rfl

/-- The cursor never leaves the buffer. -/
theorem cmdMachine_run (zero : α) {bs : α} (hbs : emit 0x5c = [bs]) (cmd : S16) :
    ∃ s, (cmdMachine emit zero).run (.start cmd) = some s ∧ Cmdinv bs s ∧ s.cmd = [] := by
  refine (cmdMachine emit zero).run_inv (I := Cmdinv bs) (Q := fun r => ∃ s, r = some s ∧ Cmdinv bs s ∧ s.cmd = [])
    (fun s s' h hs => (cmdturn_inv hbs h).2 s' hs) ?_ _ (cmdinv_start bs cmd)
  intro s r h hs
  have hne : cmdturn emit zero s ≠ .stop none := (cmdturn_inv hbs h).1
  have hs : cmdturn emit zero s = .stop r := hs
  cases r with
  | none => exact absurd hs hne
  | some r =>
    obtain ⟨rfl, hnil⟩ := cmdturn_stop hs
    exact ⟨_, rfl, h, hnil⟩

/-! ## Pointers -/

/-- Arguments of one unit, with one blank between them, to the end. A quote is such an
    argument only where nothing follows it. -/
def onebyone : S16 → Bool
  | [] => false
  | [x] => !blank x.toNat
  | x :: y :: rest => !blank x.toNat && x.toNat != 0x22 && blank y.toNat && onebyone rest

/-- The command line has as many units as there can be, starts with a blank, and has
    arguments of one unit from there on. -/
def overfull (cmd : S16) : Bool :=
  cmd.length + 1 == CMDLINE_CMD_MAX &&
    match cmd with
    | [] => false
    | y :: rest => blank y.toNat && onebyone rest

/-- Every two units that are left allow one argument more, and outside of one so does a
    single unit. -/
def Cmdstate.room (s : Cmdstate α) : Nat :=
  2 * s.argv.length + s.cmd.length + if s.state = .outside then 1 else 0

/-- The argument ends here, and one by one the others follow. -/
def endsarg : S16 → Bool
  | [] => true
  | y :: rest => blank y.toNat && onebyone rest

/-- From this state no unit that is left is lost to arguments. -/
def tight : Cmdmode → S16 → Bool
  | .outside, cmd => onebyone cmd
  | .quoted, cmd => cmd.isEmpty
  | .quotedslashes, cmd => cmd.isEmpty
  | .quoted0, cmd =>
    match cmd with
    | [] => true
    | y :: rest => y.toNat == 0x22 && onebyone rest
  | .unquoted, cmd => endsarg cmd
  | .slashes, cmd => endsarg cmd
  | .exit, cmd => endsarg cmd
  | .begin0, cmd => endsarg cmd
  | .unquoted0, cmd => endsarg cmd

theorem onebyone_cons (x : UInt16) (cmd : S16) :
    onebyone (x :: cmd) = (!blank x.toNat && if x.toNat = 0x22 then cmd.isEmpty else endsarg cmd) := by
  cases cmd with
  | nil => simp [onebyone, endsarg]
  | cons y rest =>
    by_cases hq : x.toNat = 0x22
    · simp [onebyone, hq]
    · have hne : (x.toNat != 0x22) = true := by simpa using hq
      rw [onebyone, if_neg hq, hne, endsarg, Bool.and_true, Bool.and_assoc]

theorem endsarg_cons (y : UInt16) (rest : S16) : endsarg (y :: rest) = (blank y.toNat && onebyone rest) := rfl

theorem blank_of_lt {c : Nat} (h : 0x20 < c) : blank c = false := by
  rw [blank, Bool.or_eq_false_iff, beq_eq_false_iff_ne, beq_eq_false_iff_ne]
  omega

/-- A turn from `s` to `s'` loses room, and then `s` is not tight, or keeps it. -/
def Roomy (s s' : Cmdstate α) : Prop :=
  (s'.room < s.room ∧ tight s.state s.cmd = false) ∨ (s'.room = s.room ∧ tight s'.state s'.cmd = tight s.state s.cmd)

/-- A unit that is read by itself. -/
theorem cmdturn_roomy_one {u : UInt16} {cmd : S16} {argv : List Nat} {state : Cmdmode} {slash : Nat} {buf : List α}
    {s' : Cmdstate α} (hc : takechar u cmd = (u.toNat, cmd))
    (h : cmdturn emit zero ⟨u :: cmd, argv, state, slash, buf⟩ = .go s') :
    Roomy ⟨u :: cmd, argv, state, slash, buf⟩ s' := by
  simp only [cmdturn, slashturn, hc] at h
  cases state with
  | outside =>
    simp only at h
    split at h
    · rename_i hb
      cases h
      exact Or.inl ⟨by simp [Cmdstate.room], by simp [tight, onebyone_cons, hb]⟩
    · rename_i hb
      rw [Bool.not_eq_true] at hb
      -- an argument starts here
      have hroom : 2 * (argv.length + 1) + cmd.length = 2 * argv.length + (cmd.length + 1) + 1 := by omega
      repeat' split at h
      all_goals cases h; right
      all_goals simp_all [Cmdstate.room, tight, onebyone_cons]
  | unquoted | quoted | slashes | quotedslashes | exit | begin0 | unquoted0 | quoted0 =>
    have hroom : 2 * argv.length + cmd.length + 1 = 2 * argv.length + (cmd.length + 1) := by omega
    simp only at h
    repeat' split at h
    all_goals cases h
    all_goals simp_all [Roomy, Cmdstate.room, tight, endsarg_cons, blank]

/-- A surrogate pair is never a blank, a quote or a backslash. -/
theorem cmdturn_roomy_pair {u lo : UInt16} {rest : S16} {argv : List Nat} {state : Cmdmode} {slash : Nat} {buf : List α}
    {s' : Cmdstate α} {c : Nat} (hc : takechar u (lo :: rest) = (c, rest)) (hpair : 0x10000 ≤ c)
    (hu : 0xd800 ≤ u.toNat) (hlo : 0xdc00 ≤ lo.toNat)
    (h : cmdturn emit zero ⟨u :: lo :: rest, argv, state, slash, buf⟩ = .go s') :
    Roomy ⟨u :: lo :: rest, argv, state, slash, buf⟩ s' := by
  have hb : blank c = false := blank_of_lt (by omega)
  have hq : c ≠ 0x22 := by omega
  have hs : c ≠ 0x5c := by omega
  have hbu : blank u.toNat = false := blank_of_lt (by omega)
  have hqu : u.toNat ≠ 0x22 := by omega
  have hblo : blank lo.toNat = false := blank_of_lt (by omega)
  simp only [cmdturn, slashturn, hc, hb, hq, hs, if_false, Bool.false_eq_true] at h
  cases state <;> cases h <;> simp [Roomy, Cmdstate.room, tight, onebyone_cons, endsarg_cons, hbu, hqu, hblo]
  all_goals exact Or.inl (by omega)

theorem cmdturn_roomy {s s' : Cmdstate α} (h : cmdturn emit zero s = .go s') : Roomy s s' := by
  obtain ⟨cmd, argv, state, slash, buf⟩ := s
  cases cmd with
  | nil => cases h
  | cons u cmd =>
    rcases takechar_cases u cmd with hc | ⟨lo, rest, c, rfl, hc, hpair, _, hu, hlo⟩
    · exact cmdturn_roomy_one hc h
    · exact cmdturn_roomy_pair hc hpair hu hlo h

/-- How many arguments there are at the end. -/
theorem cmdMachine_room (s r : Cmdstate α) (h : (cmdMachine emit zero).run s = some r) :
    2 * r.argv.length ≤ s.room ∧ (2 * r.argv.length = s.room ↔ tight s.state s.cmd = true) := by
  revert h
  refine (cmdMachine emit zero).run_induction
    (C := fun s => (cmdMachine emit zero).run s = some r →
      2 * r.argv.length ≤ s.room ∧ (2 * r.argv.length = s.room ↔ tight s.state s.cmd = true)) ?_ ?_ s
  · intro s r' hs h
    rw [(cmdMachine emit zero).run_stop hs] at h
    subst h
    have hs : cmdturn emit zero s = .stop (some r) := hs
    obtain ⟨rfl, hnil⟩ := cmdturn_stop hs
    rw [Cmdstate.room, hnil]
    cases hstate : s.state <;> simp [tight, onebyone, endsarg]
  · intro s s' hs ih h
    rw [(cmdMachine emit zero).run_go hs] at h
    obtain ⟨hle, heq⟩ := ih h
    rcases cmdturn_roomy hs with ⟨hlt, ht⟩ | ⟨hroom, ht⟩
    · refine ⟨by omega, ?_⟩
      rw [ht]
      simp only [Bool.false_eq_true, iff_false]
      omega
    · rw [← hroom, ← ht]
      exact ⟨hle, heq⟩

/-! ## Bytes -/

theorem utf8bytes_length (u : UInt16) (cmd : S16) :
    (utf8bytes (takechar u cmd).1).length + 3 * (takechar u cmd).2.length ≤ 3 * (cmd.length + 1) := by
  have hu := u.toNat_lt
  have hlen : ∀ c, (utf8bytes c).length ≤ 4 ∧ (c < 0x10000 → (utf8bytes c).length ≤ 3) := by
    intro c
    unfold utf8bytes
    (repeat' split) <;> simp only [List.length_cons, List.length_nil] <;> omega
  rcases takechar_cases u cmd with h | ⟨lo, rest, c, rfl, h, _⟩
  · rw [h]
    have := (hlen u.toNat).2 hu
    simp only
    omega
  · rw [h]
    have := (hlen c).1
    simp only [List.length_cons]
    omega

/-- A unit gives at most three bytes. -/
theorem cmdturn_bytes {s s' : Cmdstate UInt8} (h : cmdturn utf8bytes 0 s = .go s') :
    s'.buf.length + 3 * s'.cmd.length ≤ s.buf.length + 3 * s.cmd.length := by
  obtain ⟨cmd, argv, state, slash, buf⟩ := s
  cases cmd with
  | nil => cases h
  | cons u cmd =>
    have hle := takechar_le u cmd
    have hlen := utf8bytes_length u cmd
    simp only [cmdturn, slashturn] at h
    cases state <;> simp only at h <;> (repeat' split at h) <;> cases h <;>
      simp only [List.length_cons, List.length_append, List.length_take, List.length_nil] <;> omega

/-! ## The two halves -/

/-- The bytes of `argv` from 16384 pointers on. -/
def bufsize (ptr : Nat) : Nat := (CMDLINE_ARGV_MAX ptr - 16384) * ptr

/-- The halves do not overlap: the cursor stays in the buffer all the time, with room for
    the last terminator, and all pointers and the null pointer are stored before it. -/
def Apart (ptr : Nat) (cmd : S16) : Prop :=
  ∃ s, (cmdMachine utf8bytes 0).run (.start cmd) = some s ∧ s.argv.length + 1 ≤ 16384 ∧
    s.buf.length + 1 ≤ bufsize ptr ∧
    ∀ x ∈ (cmdMachine utf8bytes 0).states (.start cmd), x.buf.length ≤ bufsize ptr

theorem emit_backslash : utf8bytes 0x5c = [0x5c] := rfl

theorem bufsize_ge {ptr : Nat} (h : ptr = 4 ∨ ptr = 8) : 98299 ≤ bufsize ptr := by
  rcases h with rfl | rfl <;> decide

/-- How many arguments a command line has, and when they are as many as that. -/
theorem argc_le (cmd : S16) {s : Cmdstate UInt8} (h : (cmdMachine utf8bytes 0).run (.start cmd) = some s) :
    2 * s.argv.length ≤ cmd.length + 2 ∧ (2 * s.argv.length = cmd.length + 2 ↔ endsarg cmd = true) := by
  have hroom := cmdMachine_room _ _ h
  have hstart : Cmdstate.room (Cmdstate.start cmd : Cmdstate UInt8) = cmd.length + 2 := by
    simp [Cmdstate.room, Cmdstate.start, Nat.add_comm]
  rw [hstart] at hroom
  exact hroom

theorem bytes_le (cmd : S16) {x : Cmdstate UInt8} (hx : x ∈ (cmdMachine utf8bytes 0).states (.start cmd)) :
    x.buf.length ≤ 3 * cmd.length := by
  have h := (cmdMachine utf8bytes 0).states_inv
    (I := fun x => x.buf.length + 3 * x.cmd.length ≤ 3 * cmd.length)
    (fun x x' hI hs => Nat.le_trans (cmdturn_bytes hs) hI) (.start cmd) (by simp [Cmdstate.start]) x hx
  omega

/-- The kind of command line that has too many arguments. -/
theorem overfull_iff (cmd : S16) : overfull cmd = true ↔ cmd.length + 1 = CMDLINE_CMD_MAX ∧ endsarg cmd = true := by
  unfold overfull
  cases cmd with
  | nil => simp [CMDLINE_CMD_MAX]
  | cons y rest => rw [Bool.and_eq_true, beq_iff_eq]; rfl

/-- There is a pointer left for the null pointer, but for that kind. -/
theorem argc_room (c : Cmdline) {s : Cmdstate UInt8} (h : (cmdMachine utf8bytes 0).run (.start c.units) = some s) :
    s.argv.length + 1 ≤ 16384 ↔ overfull c.units = false := by
  obtain ⟨hargc, heq⟩ := argc_le c.units h
  have hfits := c.fits
  rw [← Bool.not_eq_true, overfull_iff]
  unfold CMDLINE_CMD_MAX at hfits ⊢
  constructor
  · intro hroom hfull
    have := heq.mpr hfull.2
    omega
  · intro hno
    by_contra hbig
    exact hno ⟨by omega, heq.mp (by omega)⟩

/-- For every command line: the halves of `argv` do not overlap exactly when it is not
    one of the kind that is full of arguments. -/
theorem apart_iff (c : Cmdline) (ptr : Nat) (hptr : ptr = 4 ∨ ptr = 8) :
    Apart ptr c.units ↔ overfull c.units = false := by
  obtain ⟨s, hrun, _, hnil⟩ := cmdMachine_run 0 emit_backslash c.units
  have hfits := c.fits
  have hsize := bufsize_ge hptr
  have hbytes : ∀ x ∈ (cmdMachine utf8bytes 0).states (.start c.units), x.buf.length ≤ 98298 := by
    intro x hx
    have := bytes_le c.units hx
    unfold CMDLINE_CMD_MAX at hfits
    omega
  have hfinal : s.buf.length ≤ 98298 := by
    obtain ⟨x, hx, hstop⟩ := (cmdMachine utf8bytes 0).states_last (.start c.units)
    rw [hrun] at hstop
    exact (cmdturn_stop hstop).1 ▸ hbytes x hx
  rw [← argc_room c hrun]
  constructor
  · intro h
    obtain ⟨s', hrun', hargv, _⟩ := h
    rw [hrun] at hrun'
    obtain rfl := Option.some.inj hrun'
    exact hargv
  · intro hargv
    exact ⟨s, hrun, hargv, by omega, fun x hx => Nat.le_trans (hbytes x hx) (by omega)⟩

theorem apart_iff_two : Apart 8 [0x20, 0x61] :=
  (apart_iff ⟨[0x20, 0x61], by decide, by decide⟩ 8 (Or.inr rfl)).mpr rfl

/-- `n + 1` arguments of one unit, with a blank between them. -/
def lineof : Nat → S16
  | 0 => [0x61]
  | n + 1 => 0x61 :: 0x20 :: lineof n

theorem onebyone_lineof (n : Nat) : onebyone (lineof n) = true := by
  induction n with
  | zero => rfl
  | succ n ih =>
    rw [lineof, onebyone_cons, endsarg_cons, ih]
    rfl

theorem length_lineof (n : Nat) : (lineof n).length = 2 * n + 1 := by
  induction n with
  | zero => rfl
  | succ n ih => rw [lineof, List.length_cons, List.length_cons, ih]; omega

theorem nonzero_lineof (n : Nat) : 0 ∉ lineof n := by
  induction n with
  | zero => decide
  | succ n ih =>
    rw [lineof, List.mem_cons, List.mem_cons, not_or, not_or]
    exact ⟨by decide, by decide, ih⟩

/-- A blank, and then as many arguments of one unit as there is room for. -/
def fullline : Cmdline where
  units := 0x20 :: lineof 16382
  nonzero := List.not_mem_cons_of_ne_of_not_mem (by decide) (nonzero_lineof 16382)
  fits := by rw [List.length_cons, length_lineof]; decide

/-- The null pointer after the arguments of this line is stored to the bytes. -/
theorem fullline_overlaps : ¬ Apart 4 fullline.units ∧ ¬ Apart 8 fullline.units := by
  have hunits : fullline.units = 0x20 :: lineof 16382 := rfl
  have hlen : fullline.units.length = 32766 := by rw [hunits, List.length_cons, length_lineof]
  have hends : endsarg fullline.units = true := by rw [hunits, endsarg_cons, onebyone_lineof]; rfl
  have hargc : ∀ ptr, ¬ Apart ptr fullline.units := by
    intro ptr h
    obtain ⟨s, hrun, hargv, _⟩ := h
    have := (argc_le _ hrun).2.mpr hends
    omega
  exact ⟨hargc 4, hargc 8⟩

end GnuWindows.PkgConfig
