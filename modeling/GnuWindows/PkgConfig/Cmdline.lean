/-
  GnuWindows.PkgConfig.Cmdline — splitting the Windows command line (`cmdline_to_argv8`).

  The parser is a machine of nine states over the UTF-16 units of the command line. It
  encodes what belongs to an argument at a byte cursor, takes backslashes back when a
  quote follows them, and reads a unit, or a surrogate pair, again when the state it is
  in says so. It puts the arguments' pointers in the first half of `argv` and the bytes
  after 16384 pointers.

  What a code point is encoded as is a parameter: bytes for `cmdline_to_argv8`, the code
  point itself for the arguments as they stand on the command line (`argchars`). A cursor
  moved in front of the buffer is the outcome `none`.
-/
import GnuWindows.Lib.BoundedStack
import GnuWindows.PkgConfig.Wide

namespace GnuWindows.PkgConfig

open GnuWindows.Lib.BoundedStack (Next Machine)

/-- The most units of a command line, with the terminator. -/
def CMDLINE_CMD_MAX : Nat := 32767

/-- The pointers in `argv`, when one has `ptr` bytes. -/
def CMDLINE_ARGV_MAX (ptr : Nat) : Nat := 16384 + (98298 + ptr) / ptr

/-- A command line: the units before the terminator. -/
structure Cmdline where
  units : S16
  nonzero : 0 ∉ units
  fits : units.length + 1 ≤ CMDLINE_CMD_MAX

/-! ## The machine -/

inductive Cmdmode where
  | outside        -- 0: outside token
  | unquoted       -- 1: inside unquoted token
  | quoted         -- 2: inside quoted token
  | slashes        -- 3: backslash sequence, unquoted
  | quotedslashes  -- 4: backslash sequence, quoted
  | exit           -- 5: quoted token exit
  | begin0         -- 6: begin argv[0]
  | unquoted0      -- 7: unquoted argv[0]
  | quoted0        -- 8: quoted argv[0]
  deriving DecidableEq

structure Cmdstate (α : Type) where
  /-- The units still to be read. -/
  cmd : S16
  /-- Where each argument starts in the buffer; there are `argc`. -/
  argv : List Nat
  state : Cmdmode
  slash : Nat
  /-- The buffer up to the cursor. -/
  buf : List α

/-- The code point that starts with `u`, and the units after it. A surrogate pair is one;
    the terminator is no low surrogate. -/
def takechar (u : UInt16) (cmd : S16) : Nat × S16 :=
  match cmd with
  | [] => (u.toNat, [])
  | lo :: rest =>
    if u.toNat >>> 10 = 0x36 ∧ lo.toNat >>> 10 = 0x37 then
      (0x10000 + (u.toNat - 0xd800) <<< 10 + (lo.toNat - 0xdc00), rest)
    else (u.toNat, cmd)

/-- Tab and space. -/
def blank (c : Nat) : Bool := c == 0x09 || c == 0x20

variable {α : Type} (emit : Nat → List α) (zero : α)

/-- A turn in a backslash sequence; `back` is the state it came from. -/
def slashturn (s : Cmdstate α) (back : Cmdmode) (c : Nat) (cmd : S16) : Next (Cmdstate α) (Option (Cmdstate α)) :=
  if c = 0x22 then
    let count := (1 + s.slash) >>> 1
    if s.buf.length < count then .stop none
    else
      let buf := s.buf.take (s.buf.length - count)
      if s.slash &&& 1 = 1 then .go { s with cmd := cmd, state := back, buf := buf ++ emit c }
      else .go { s with state := back, buf := buf }  -- read again
  else if c = 0x5c then .go { s with cmd := cmd, slash := s.slash + 1, buf := s.buf ++ emit c }
  else .go { s with state := back }  -- read again

/-- One turn of the loop. -/
def cmdturn (s : Cmdstate α) : Next (Cmdstate α) (Option (Cmdstate α)) :=
  match s.cmd with
  | [] => .stop (some s)
  | u :: cmd =>
    let c := (takechar u cmd).1
    let cmd := (takechar u cmd).2
    match s.state with
    | .outside =>
      if blank c then .go { s with cmd := cmd }
      else
        let s := { s with cmd := cmd, argv := s.argv ++ [s.buf.length] }
        if c = 0x22 then .go { s with state := .quoted }
        else if c = 0x5c then .go { s with slash := 1, state := .slashes, buf := s.buf ++ emit c }
        else .go { s with state := .unquoted, buf := s.buf ++ emit c }
    | .unquoted =>
      if blank c then .go { s with cmd := cmd, state := .outside, buf := s.buf ++ [zero] }
      else if c = 0x22 then .go { s with cmd := cmd, state := .quoted }
      else if c = 0x5c then .go { s with cmd := cmd, slash := 1, state := .slashes, buf := s.buf ++ emit c }
      else .go { s with cmd := cmd, buf := s.buf ++ emit c }
    | .quoted =>
      if c = 0x22 then .go { s with cmd := cmd, state := .exit }
      else if c = 0x5c then .go { s with cmd := cmd, slash := 1, state := .quotedslashes, buf := s.buf ++ emit c }
      else .go { s with cmd := cmd, buf := s.buf ++ emit c }
    | .slashes => slashturn emit s .unquoted c cmd
    | .quotedslashes => slashturn emit s .quoted c cmd
    | .exit =>
      if c = 0x22 then .go { s with cmd := cmd, state := .unquoted, buf := s.buf ++ emit c }
      else .go { s with state := .unquoted }  -- read again
    | .begin0 =>
      if blank c then .go { s with cmd := cmd, state := .outside, buf := s.buf ++ [zero] }
      else if c = 0x22 then .go { s with cmd := cmd, state := .quoted0 }
      else .go { s with cmd := cmd, state := .unquoted0, buf := s.buf ++ emit c }
    | .unquoted0 =>
      if blank c then .go { s with cmd := cmd, state := .outside, buf := s.buf ++ [zero] }
      else .go { s with cmd := cmd, buf := s.buf ++ emit c }
    | .quoted0 =>
      if c = 0x22 then .go { s with cmd := cmd, state := .outside, buf := s.buf ++ [zero] }
      else .go { s with cmd := cmd, buf := s.buf ++ emit c }

/-! ## The loop ends -/

/-- The states that may read a unit again, in another state. -/
def Cmdmode.rereads : Cmdmode → Nat
  | .slashes | .quotedslashes | .exit => 1
  | _ => 0

theorem takechar_cases (u : UInt16) (cmd : S16) :
    takechar u cmd = (u.toNat, cmd) ∨
      ∃ lo rest c, cmd = lo :: rest ∧ takechar u cmd = (c, rest) ∧ 0x10000 ≤ c ∧ c < 0x110000 ∧
        0xd800 ≤ u.toNat ∧ 0xdc00 ≤ lo.toNat := by
  cases cmd with
  | nil => exact Or.inl rfl
  | cons lo rest =>
    unfold takechar
    simp only
    split
    · rename_i h
      have hlo := h.2
      have hu := h.1
      rw [Nat.shiftRight_eq_div_pow] at hu hlo
      refine Or.inr ⟨lo, rest, _, rfl, rfl, ?_, ?_, ?_, ?_⟩
      · omega
      · rw [Nat.shiftLeft_eq]; omega
      · omega
      · omega
    · exact Or.inl rfl

theorem takechar_le (u : UInt16) (cmd : S16) : (takechar u cmd).2.length ≤ cmd.length := by
  rcases takechar_cases u cmd with h | ⟨lo, rest, c, rfl, h, _⟩
  · exact Nat.le_of_eq (by rw [h])
  · rw [h]; exact Nat.le_succ _

def Cmdstate.measure (s : Cmdstate α) : Nat := 2 * s.cmd.length + s.state.rereads

theorem cmdturn_measure {s s' : Cmdstate α} (h : cmdturn emit zero s = .go s') : s'.measure < s.measure := by
  obtain ⟨cmd, argv, state, slash, buf⟩ := s
  cases cmd with
  | nil => cases h
  | cons u cmd =>
    have hle := takechar_le u cmd
    simp only [cmdturn, slashturn] at h
    cases state <;> simp only at h <;> (repeat' split at h) <;> cases h <;>
      simp only [Cmdstate.measure, Cmdmode.rereads, List.length_cons] <;> omega

def cmdMachine : Machine 1 (fun _ => True) (Cmdstate α) (Option (Cmdstate α)) :=
  .loop (cmdturn emit zero) Cmdstate.measure (cmdturn_measure emit zero)

/-- `argv[0]` starts at the start of the buffer. -/
def Cmdstate.start (cmd : S16) : Cmdstate α := ⟨cmd, [0], .begin0, 0, []⟩

/-! ## The result -/

/-- The strings in a buffer that start at these places: up to a terminator. -/
def strings [DecidableEq α] (argv : List Nat) (mem : List α) : List (List α) :=
  argv.map fun start => (mem.drop start).takeWhile (· ≠ zero)

structure Argv8 where
  /-- Offsets into the byte buffer; there are `argc`. -/
  argv : List Nat
  /-- The bytes from the start of the buffer to the last terminator. -/
  mem : S8

def Argv8.argc (r : Argv8) : Nat := r.argv.length

/-- `argv[argc] = 0`: from 16384 pointers on this is a store to the buffer. -/
def storenull (ptr argc : Nat) (mem : S8) : S8 :=
  mem.mapIdx fun i b => if 16384 * ptr + i < argc * ptr ∨ (argc + 1) * ptr ≤ 16384 * ptr + i then b else 0

def cmdline_to_argv8 (ptr : Nat) (cmd : S16) : Option Argv8 :=
  ((cmdMachine utf8bytes 0).run (.start cmd)).map fun s => ⟨s.argv, storenull ptr s.argv.length (s.buf ++ [0])⟩

/-- The arguments as they stand on the command line: the code points of each. -/
def argchars (cmd : S16) : Option (List (List Nat)) :=
  ((cmdMachine (fun c => [c]) 0).run (.start cmd)).map fun s => strings 0 s.argv (s.buf ++ [0])

end GnuWindows.PkgConfig
