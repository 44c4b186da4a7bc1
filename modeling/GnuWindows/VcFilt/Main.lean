/-
  GnuWindows.VcFilt.Main — the program (`usage`, `parseargs`, `run`, `mainCRTStartup` of
  vc++filt.c).

  Options come before the symbols, and `--` ends them. An argument that begins with a dash
  has any number of letters, so of the options only the letters count, one after the other.
  The first that is no letter of an option ends the program. An argument is the units before
  its terminator, and a dash alone is an option without letters.

  The system calls are parameters, and so is what the buffers leave of the arena.

  Proved: `mainCRTStartup_ends`, how the program ends and what it has written, from the
  letters and the symbols of the command line.
-/
import GnuWindows.VcFilt.Failures

namespace GnuWindows.VcFilt

open GnuWindows.PkgConfig (S8 S16 S)

structure Win where
  argv : List S16
  /-- Whether pointers have four bytes. -/
  pointers32 : Bool
  /-- Whether `WriteFile` takes the message on this descriptor. -/
  writeusage : Nat → Bool
  /-- What `WideCharToMultiByte` stores, of the length that it returns. -/
  widechartomultibyte : S16 → S8
  /-- What `UnDecorateSymbolName` stores, of the length that it returns. -/
  undecoratesymbolname : S8 → UInt32 → S8
  /-- What `ReadFile` delivers on standard input, call by call. -/
  readfile : List S8
  stdout : Handle
  perm : Arena

/-! ## Options -/

def usagemessage : S8 :=
  S "usage: vc++filt [-_ahnp] [symbols...] <input\n" ++
  S "  -_     32-bit mode\n" ++
  S "  -a     print access specifiers\n" ++
  S "  -h     print usage message\n" ++
  S "  -n     64-bit mode\n" ++
  S "  -p     do not print parameters\n"

inductive Status where
  | OK
  | EXIT
  | FAIL
  deriving DecidableEq

structure Parsedargs where
  flags : UInt32
  index : Nat
  status : Status
  /-- What was written, and the descriptor. -/
  usages : List (Nat × S8)

def UNDNAME_NO_ACCESS_SPECIFIERS : UInt32 := 0x0080
def UNDNAME_32_BIT_DECODE : UInt32 := 0x0800
def UNDNAME_NAME_ONLY : UInt32 := 0x1000

/-- The letters of one argument: the flags, or why the program ends and where the message
    goes. -/
def parseletters (win : Win) (flags : UInt32) : S16 → UInt32 × Option (Status × Nat)
  | [] => (flags, none)
  | c :: arg =>
    if c = 0x61 then parseletters win (flags &&& ~~~UNDNAME_NO_ACCESS_SPECIFIERS) arg
    else if c = 0x68 then (flags, some (if win.writeusage 1 then .EXIT else .FAIL, 1))
    else if c = 0x5f then parseletters win (flags ||| UNDNAME_32_BIT_DECODE) arg
    else if c = 0x6e then parseletters win (flags &&& ~~~UNDNAME_32_BIT_DECODE) arg
    else if c = 0x70 then parseletters win (flags ||| UNDNAME_NAME_ONLY) arg
    else (flags, some (.FAIL, 2))

/-- The loop over the arguments from `index` on. -/
def parseloop (win : Win) (flags : UInt32) (index : Nat) : List S16 → Parsedargs
  | [] => ⟨flags, index, .OK, []⟩
  | arg :: args =>
    if arg.head? ≠ some 0x2d then ⟨flags, index, .OK, []⟩  -- positional argument
    else if arg = [0x2d, 0x2d] then ⟨flags, index + 1, .OK, []⟩  -- discard "--"
    else
      match parseletters win flags arg.tail with
      | (flags, none) => parseloop win flags (index + 1) args
      | (flags, some (status, fd)) => ⟨flags, index, status, [(fd, usagemessage)]⟩

def parseargs (win : Win) : Parsedargs :=
  let flags := if win.pointers32 then UNDNAME_32_BIT_DECODE else 0
  parseloop win (flags ||| UNDNAME_NO_ACCESS_SPECIFIERS) 1 (win.argv.drop 1)

structure Outcome where
  ret : Nat
  usages : List (Nat × S8)
  out : Written

def mainCRTStartup (win : Win) : Outcome :=
  let args := parseargs win
  match args.status with
  | .EXIT => ⟨0, args.usages, (newbufout win.stdout).dev⟩
  | .FAIL => ⟨1, args.usages, (newbufout win.stdout).dev⟩
  | .OK =>
    let syms := (win.argv.drop args.index).map win.widechartomultibyte
    let out := (run win.undecoratesymbolname win.stdout args.flags syms win.perm win.readfile).dev
    ⟨if out.err then 1 else 0, args.usages, out⟩

/-! ## The command line -/

/-- The letters of all options, and the symbols. -/
def commandline : List S16 → S16 × List S16
  | [] => ([], [])
  | arg :: args =>
    if arg.head? ≠ some 0x2d then ([], arg :: args)
    else if arg = [0x2d, 0x2d] then ([], args)
    else (arg.tail ++ (commandline args).1, (commandline args).2)

/-- A letter that sets or clears a flag. -/
def isflag (c : UInt16) : Bool := c == 0x61 || c == 0x5f || c == 0x6e || c == 0x70

/-- The flags, from what they say. -/
def flagword (access decode32 nameonly : Bool) : UInt32 :=
  (if access then 0 else UNDNAME_NO_ACCESS_SPECIFIERS) ||| (if decode32 then UNDNAME_32_BIT_DECODE else 0) |||
    (if nameonly then UNDNAME_NAME_ONLY else 0)

/-- The last of the two letters counts. -/
def decodes32 (pointers32 : Bool) (letters : S16) : Bool :=
  match letters.reverse.find? fun c => c == 0x5f || c == 0x6e with
  | some c => c == 0x5f
  | none => pointers32

/-- What the flags are after these letters. -/
def flagsafter (pointers32 : Bool) (letters : S16) : UInt32 :=
  flagword (letters.contains 0x61) (decodes32 pointers32 letters) (letters.contains 0x70)

/-- How the program ends at another letter, and where the message goes. -/
def stop (win : Win) (c : UInt16) : Status × Nat :=
  if c = 0x68 then (if win.writeusage 1 then .EXIT else .FAIL, 1) else (.FAIL, 2)

variable {win : Win} {pointers32 : Bool}

/-! ## Letters -/

theorem decodes32_concat (letters : S16) (c : UInt16) : decodes32 pointers32 (letters ++ [c]) =
    if c == 0x5f || c == 0x6e then c == 0x5f else decodes32 pointers32 letters := by
  rw [decodes32, List.reverse_append, List.reverse_singleton, List.singleton_append, List.find?_cons]
  cases hc : c == 0x5f || c == 0x6e <;> rfl

theorem flagword_access (access decode32 nameonly : Bool) :
    flagword access decode32 nameonly &&& ~~~UNDNAME_NO_ACCESS_SPECIFIERS = flagword true decode32 nameonly := by
  cases access <;> cases decode32 <;> cases nameonly <;> decide

theorem flagword_decode32 (access decode32 nameonly : Bool) :
    flagword access decode32 nameonly ||| UNDNAME_32_BIT_DECODE = flagword access true nameonly := by
  cases access <;> cases decode32 <;> cases nameonly <;> decide

theorem flagword_decode64 (access decode32 nameonly : Bool) :
    flagword access decode32 nameonly &&& ~~~UNDNAME_32_BIT_DECODE = flagword access false nameonly := by
  cases access <;> cases decode32 <;> cases nameonly <;> decide

theorem flagword_nameonly (access decode32 nameonly : Bool) :
    flagword access decode32 nameonly ||| UNDNAME_NAME_ONLY = flagword access decode32 true := by
  cases access <;> cases decode32 <;> cases nameonly <;> decide

/-- One more letter sets or clears its flag. -/
theorem parseletters_cons (letters : S16) {c : UInt16} (hc : isflag c = true) (arg : S16) :
    parseletters win (flagsafter pointers32 letters) (c :: arg) =
      parseletters win (flagsafter pointers32 (letters ++ [c])) arg := by
  have hcases : c = 0x61 ∨ c = 0x5f ∨ c = 0x6e ∨ c = 0x70 := by
    simpa [isflag, or_assoc] using hc
  unfold flagsafter
  rw [decodes32_concat, List.contains_append, List.contains_append, parseletters]
  rcases hcases with rfl | rfl | rfl | rfl
  · rw [if_pos rfl, flagword_access]
    simp
  · rw [if_neg (by decide), if_neg (by decide), if_pos rfl, flagword_decode32]
    simp
  · rw [if_neg (by decide), if_neg (by decide), if_neg (by decide), if_pos rfl, flagword_decode64]
    simp
  · rw [if_neg (by decide), if_neg (by decide), if_neg (by decide), if_neg (by decide), if_pos rfl, flagword_nameonly]
    simp

variable (win pointers32) in
theorem parseletters_append (letters : S16) {flags : S16} (h : ∀ c ∈ flags, isflag c = true) (arg : S16) :
    parseletters win (flagsafter pointers32 letters) (flags ++ arg) =
      parseletters win (flagsafter pointers32 (letters ++ flags)) arg := by
  induction flags generalizing letters with
  | nil => rw [List.append_nil]; rfl
  | cons c flags ih =>
    obtain ⟨hc, h⟩ := List.forall_mem_cons.mp h
    rw [List.cons_append, parseletters_cons letters hc, ih _ h, List.append_assoc]
    rfl

/-- Another letter ends the program. -/
theorem parseletters_stop (flags : UInt32) {c : UInt16} (hc : isflag c = false) (arg : S16) :
    parseletters win flags (c :: arg) = (flags, some (stop win c)) := by
  have hne : c ≠ 0x61 ∧ c ≠ 0x5f ∧ c ≠ 0x6e ∧ c ≠ 0x70 := by simpa [isflag, and_assoc] using hc
  obtain ⟨ha, h_, hn, hp⟩ := hne
  rw [parseletters, if_neg ha, if_neg h_, if_neg hn, if_neg hp, stop]
  split <;> rfl

/-! ## Arguments -/

variable (win) in
theorem parseloop_flags (args : List S16) (h : ∀ c ∈ (commandline args).1, isflag c = true) (letters : S16)
    (index : Nat) : ∃ k, args.drop k = (commandline args).2 ∧ parseloop win (flagsafter pointers32 letters) index args =
      ⟨flagsafter pointers32 (letters ++ (commandline args).1), index + k, .OK, []⟩ := by
  induction args generalizing letters index with
  | nil => exact ⟨0, rfl, by rw [commandline, List.append_nil]; rfl⟩
  | cons arg args ih =>
    rw [commandline] at h ⊢
    rw [parseloop]
    by_cases hdash : arg.head? ≠ some 0x2d
    · rw [if_pos hdash, if_pos hdash]
      exact ⟨0, rfl, by rw [List.append_nil]; rfl⟩
    by_cases hend : arg = [0x2d, 0x2d]
    · rw [if_neg hdash, if_neg hdash, if_pos hend, if_pos hend]
      exact ⟨1, rfl, by rw [List.append_nil]⟩
    · rw [if_neg hdash, if_neg hend] at h ⊢
      rw [if_neg hdash, if_neg hend]
      obtain ⟨harg, hargs⟩ := List.forall_mem_append.mp h
      have hletters := parseletters_append win pointers32 letters harg []
      rw [List.append_nil] at hletters
      obtain ⟨k, hdrop, hloop⟩ := ih hargs (letters ++ arg.tail) (index + 1)
      refine ⟨k + 1, hdrop, ?_⟩
      rw [hletters, ← List.append_assoc, Nat.add_comm k, ← Nat.add_assoc]
      exact hloop

variable (win) in
theorem parseloop_stop (args : List S16) {flags post : S16} {c : UInt16}
    (hline : (commandline args).1 = flags ++ c :: post) (h : ∀ x ∈ flags, isflag x = true) (hc : isflag c = false)
    (letters : S16) (index : Nat) : ∃ word k, parseloop win (flagsafter pointers32 letters) index args =
      ⟨word, k, (stop win c).1, [((stop win c).2, usagemessage)]⟩ := by
  induction args generalizing letters index flags with
  | nil => cases flags <;> cases hline
  | cons arg args ih =>
    rw [commandline] at hline
    rw [parseloop]
    by_cases hdash : arg.head? ≠ some 0x2d
    · rw [if_pos hdash] at hline
      cases flags <;> cases hline
    by_cases hend : arg = [0x2d, 0x2d]
    · rw [if_neg hdash, if_pos hend] at hline
      cases flags <;> cases hline
    · rw [if_neg hdash, if_neg hend] at hline ⊢
      rcases List.append_eq_append_iff.mp hline with ⟨more, rfl, hmore⟩ | ⟨more, htail, hmore⟩
      · -- the letter is in a later argument
        obtain ⟨harg, hlater⟩ := List.forall_mem_append.mp h
        have hletters := parseletters_append win pointers32 letters harg []
        rw [List.append_nil] at hletters
        rw [hletters]
        exact ih hmore hlater (letters ++ arg.tail) (index + 1)
      · cases more with
        | nil =>
          rw [List.append_nil] at htail
          rw [List.nil_append] at hmore
          have hletters := parseletters_append win pointers32 letters h []
          rw [List.append_nil] at hletters
          rw [htail, hletters]
          have hline : (commandline args).1 = [] ++ c :: post := hmore.symm
          exact ih hline (List.forall_mem_nil _) (letters ++ flags) (index + 1)
        | cons d more =>
          obtain ⟨rfl, -⟩ := List.cons.inj hmore
          have hletters := parseletters_append win pointers32 letters h (c :: more)
          rw [htail, hletters, parseletters_stop _ hc]
          exact ⟨_, _, rfl⟩

/-! ## The program -/

theorem parseargs_start (win : Win) :
    parseargs win = parseloop win (flagsafter win.pointers32 []) 1 (win.argv.drop 1) := by
  have hstart : (if win.pointers32 then UNDNAME_32_BIT_DECODE else 0) ||| UNDNAME_NO_ACCESS_SPECIFIERS =
      flagsafter win.pointers32 [] := by cases win.pointers32 <;> decide
  rw [parseargs, hstart]

/-- What is written for the symbols of the command line, or else for those of the stream. -/
def text (win : Win) (flags : UInt32) (symbols : List S16) : S8 :=
  if symbols ≠ [] then
    symbols.flatMap fun sym => win.undecoratesymbolname (win.widechartomultibyte sym) flags ++ [0x0a]
  else filtered win.undecoratesymbolname flags (stream win.readfile)

theorem run_text (win : Win) (flags : UInt32) (symbols : List S16) :
    run win.undecoratesymbolname win.stdout flags (symbols.map win.widechartomultibyte) win.perm win.readfile =
      flush (writes8 (newbufout win.stdout) (text win flags symbols)) := by
  cases symbols with
  | nil => exact run_stream win.undecoratesymbolname win.stdout flags win.perm win.readfile
  | cons sym symbols =>
    rw [run_output, calls_eq, handed, output, text, if_pos (by simp), if_pos (by simp), if_pos (by simp), List.map_map,
      List.flatMap_map, List.flatMap_map]
    rfl

/-- How the program ends: with the message, or with what it has written. -/
def ended (win : Win) (flags : UInt32) (symbols : List S16) : Outcome :=
  let out := (flush (writes8 (newbufout win.stdout) (text win flags symbols))).dev
  ⟨if out.err then 1 else 0, [], out⟩

theorem ended_ret (win : Win) (flags : UInt32) (symbols : List S16) :
    (ended win flags symbols).ret = 0 ↔ (ended win flags symbols).out.err = false := by
  unfold ended
  generalize (flush (writes8 (newbufout win.stdout) (text win flags symbols))).dev = out
  show (if out.err = true then 1 else 0) = 0 ↔ out.err = false
  cases out.err <;> decide

/-- For every command line, standard input and outcome of the calls. When all letters of
    the options are flags, the program writes what is meant of the symbols that follow, and
    of standard input only without any; it returns 0 exactly when no call fails, and then
    a file has that text. Access specifiers are left out unless an `a` is there, parameters
    if a `p` is, and of `_` and `n` the last one counts. At the first other letter it
    writes the message and nothing else, to standard output for an `h` and to standard
    error otherwise, and returns 0 only for an `h`, when the message could be written. -/
theorem mainCRTStartup_ends (win : Win) :
    let line := commandline (win.argv.drop 1)
    let flags := flagsafter win.pointers32 line.1
    ((∀ c ∈ line.1, isflag c = true) → mainCRTStartup win = ended win flags line.2 ∧
      ((mainCRTStartup win).ret = 0 ↔ (mainCRTStartup win).out.err = false) ∧
      (win.stdout.console = false → (mainCRTStartup win).ret = 0 →
        (mainCRTStartup win).out.files.flatten = text win flags line.2)) ∧
    ∀ before c after, line.1 = before ++ c :: after → (∀ x ∈ before, isflag x = true) → isflag c = false →
      mainCRTStartup win = ⟨if c = 0x68 ∧ win.writeusage 1 = true then 0 else 1,
        [(if c = 0x68 then 1 else 2, usagemessage)], ⟨false, [], []⟩⟩ := by
  intro line flags
  constructor
  · intro h
    obtain ⟨k, hdrop, hloop⟩ := parseloop_flags win (win.argv.drop 1) h [] 1
    have hparse : parseargs win = ⟨flags, 1 + k, .OK, []⟩ := (parseargs_start win).trans hloop
    have hmain : mainCRTStartup win = ended win flags line.2 := by
      rw [mainCRTStartup, hparse, ended, ← run_text, ← show _ = line.2 from hdrop, List.drop_drop]
    have hret := ended_ret win flags line.2
    rw [hmain]
    exact ⟨rfl, hret, fun hfile hzero => files_text hfile (hret.mp hzero)⟩
  · intro before c after hline h hc
    obtain ⟨word, k, hloop⟩ := parseloop_stop win (win.argv.drop 1) hline h hc [] 1
    have hparse := (parseargs_start win).trans hloop
    rw [mainCRTStartup, hparse, stop]
    by_cases hh : c = 0x68
    · cases hw : win.writeusage 1 <;> simp [hh, newbufout, GnuWindows.Lib.Blocks.Buffer.empty]
    · simp [hh, newbufout, GnuWindows.Lib.Blocks.Buffer.empty]

end GnuWindows.VcFilt
