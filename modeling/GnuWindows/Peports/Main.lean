/-
  GnuWindows.Peports.Main — options, files and the exit status (`parseopts`, `osload`,
  `processpath`, `peports`).

  The system is a parameter: what a call gives depends on the world, which it may change
  (standard input is read once). `oswrite` is one for each of the two outputs, and the loader
  is the platform's; here is the one for Windows. The arena is what the two buffers leave of
  it.
-/
import GnuWindows.Peports.Processpe

namespace GnuWindows.Peports

open GnuWindows.PkgConfig (S8 S)

/-- The `config` of the command line. -/
structure Cmdconfig where
  out : U8buf
  err : U8buf
  optind : Nat
  exports : Bool
  imports : Bool

inductive Optstatus where
  | OK
  | EXIT
  | ERR
  deriving DecidableEq

def usage : S8 :=
  S "usage: peports [-ehi] [files...]\n" ++
    (S "  -e    print the export table\n" ++
      (S "  -h    print this message\n" ++
        (S "  -i    print the import table\n" ++
          (S "Prints export and import tables of EXEs and DLLs.\n" ++
            S "Given no arguments, reads data from standard input.\n"))))

-- what `oswrite` returns for standard output, and for standard error
variable (oswrite oswrite₂ : List S8 → S8 → Bool)

/-- The letters of an argument; `OK` goes on with the next argument. -/
def parsechars : S8 → Cmdconfig → Cmdconfig × Optstatus
  | [], c => (c, .OK)
  | x :: chars, c =>
    if x = 0x65 then parsechars chars { c with exports := true }  -- e
    else if x = 0x68 then  -- h
      let out := flush oswrite (prints8 oswrite c.out usage)
      ({ c with out }, if out.err then .ERR else .EXIT)
    else if x = 0x69 then parsechars chars { c with imports := true }  -- i
    else
      let err := prints8 oswrite₂ c.err (S "peports: unknown option: -")
      let err := prints8 oswrite₂ err [x]
      let err := prints8 oswrite₂ err (S "\n")
      let err := prints8 oswrite₂ err usage
      ({ c with err := flush oswrite₂ err }, .ERR)

def parseargs : List S8 → Cmdconfig → Cmdconfig × Optstatus
  | [], c => (c, .OK)
  | arg :: args, c =>
    match arg with
    | 0x2d :: chars =>
      match parsechars oswrite oswrite₂ chars c with
      | (c, .OK) => parseargs args { c with optind := c.optind + 1 }
      | r => r
    | _ => (c, .OK)

def parseopts (argv : List S8) (c : Cmdconfig) : Cmdconfig × Optstatus :=
  let first := if argv.length = 0 then 0 else 1
  match parseargs oswrite oswrite₂ (argv.drop first) { c with optind := first } with
  | (c, .OK) => (if !c.imports && !c.exports then { c with imports := true, exports := true } else c, .OK)
  | r => r

/-! ## Loading -/

/-- What `osload` calls. -/
structure Os (World : Type) where
  /-- The length of a path in UTF-16. -/
  widelen : S8 → Nat
  /-- Whether a path is opened. -/
  createfile : World → S8 → Bool × World
  /-- The next bytes of what is open; none at its end, or when it cannot be read. -/
  readfile : World → S8 → Nat → S8 × World
  readfile_le : ∀ w path max, (readfile w path max).1.length ≤ max

def truncsize (len max : Nat) : Nat := if max < len then max else len

theorem truncsize_le (len max : Nat) : truncsize len max ≤ len := by
  unfold truncsize
  split <;> omega

section

variable {World : Type} (os : Os World)

/-- The loop of `osload`. -/
def readall (path : S8) (avail : Nat) (w : World) : S8 × World :=
  let r := os.readfile w path (truncsize avail (1 <<< 21))
  if _h : r.1.length < 1 then ([], r.2)
  else
    let rest := readall path (avail - r.1.length) r.2
    (r.1 ++ rest.1, rest.2)
termination_by avail
decreasing_by
  have h1 := os.readfile_le w path (truncsize avail (1 <<< 21))
  have h2 := truncsize_le avail (1 <<< 21)
  simp only [r] at _h ⊢
  omega

theorem readall_le (path : S8) (avail : Nat) (w : World) : (readall os path avail w).1.length ≤ avail := by
  induction avail, w using readall.induct os path with
  | case1 avail w r h =>
    rw [readall, dif_pos h]
    exact Nat.zero_le _
  | case2 avail w r h ih =>
    have h1 : r.1.length ≤ truncsize avail (1 <<< 21) := os.readfile_le w path _
    have h2 := truncsize_le avail (1 <<< 21)
    rw [readall, dif_neg h]
    show (r.1 ++ (readall os path (avail - r.1.length) r.2).1).length ≤ avail
    rw [List.length_append]
    omega

/-- What may be filled of the arena. -/
def Arena.avail (a : Arena) : Nat := (a.fin - a.beg) - (a.fin - a.beg) / 8

def Arena.load (a : Arena) (path : S8) (w : World) : Pe (Slice × Arena) × World :=
  let r := readall os path a.avail w
  (pure (some r.1, ⟨a.beg + r.1.length, a.fin, by
    have h1 : r.1.length ≤ a.avail := readall_le os path a.avail w
    have h2 := a.le
    unfold Arena.avail at h1
    omega, a.fits⟩), r.2)

def osload (w : World) (a : Arena) (path : S8) : Pe (Slice × Arena) × World :=
  if path = S "-" then a.load os path w
  else if 0x80000000 ≤ path.length then (throw .unreachable, w)
  else
    -- the path in UTF-16; nothing is printed
    match ((alloc a (os.widelen path + 1) 2 2).run newu8buf).1 with
    | .error e => (throw e, w)
    | .ok _ =>
      match os.createfile w path with
      | (false, w) => (pure (none, a), w)
      | (true, w) => a.load os path w

end

/-! ## Files -/

/-- An `osload`: what it gives depends on the world. -/
abbrev Loader (World : Type) := World → Arena → S8 → Pe (Slice × Arena) × World

section

variable {World : Type} (load : Loader World)

/-- What `osload` gave is listed. -/
def processloaded (conf : Config) (loaded : Pe (Slice × Arena)) : Pe Unit := do
  match ← loaded with
  | (none, _) => throws "could not load file"
  | (some dll, scratch) => processpe oswrite conf scratch dll

def processpath (path : S8) (conf : Config) (scratch : Arena) (w : World) : Pe Unit × World :=
  let loaded := load w scratch path
  (processloaded oswrite conf loaded.1, loaded.2)

/-- What the loop over the paths changes. -/
structure Files (World : Type) where
  ok : UInt32
  out : U8buf
  err : U8buf
  world : World

/-- A turn of the loop over the paths. A throw ends up in its first branch; no other fault
    is caught. -/
def fileturn (conf : Config) (scratch : Arena) (t : Files World) (path : S8) : Except Fault (Files World) :=
  let processed := processpath oswrite load path conf scratch t.world
  match processed.1.run t.out with
  | (.error (.throw reason), out) =>
    let out := flush oswrite out
    let err := prints8 oswrite₂ t.err (S "peports: ")
    let err := prints8 oswrite₂ err reason
    let err := prints8 oswrite₂ err (S ": ")
    let err := prints8 oswrite₂ err path
    let err := prints8 oswrite₂ err (S "\n")
    .ok ⟨t.ok &&& 1, out, flush oswrite₂ err, processed.2⟩
  | (.error e, _) => .error e
  | (.ok (), out) => .ok { t with out, world := processed.2 }

def peports (argv : List S8) (scratch : Arena) (w : World) : Except Fault (Files World) :=
  let conf := parseopts oswrite oswrite₂ argv ⟨newu8buf, newu8buf, 0, false, false⟩
  match conf.2 with
  | .EXIT => .ok ⟨1, conf.1.out, conf.1.err, w⟩
  | .ERR => .ok ⟨0, conf.1.out, conf.1.err, w⟩
  | .OK => do
    let (argv, optind) := if conf.1.optind = argv.length then ([S "peports", S "-"], 1) else (argv, conf.1.optind)
    let t ← (argv.drop optind).foldlM (fileturn oswrite oswrite₂ load ⟨conf.1.exports, conf.1.imports⟩ scratch)
      ⟨1, conf.1.out, conf.1.err, w⟩
    let out := flush oswrite t.out
    .ok { t with out, ok := t.ok &&& if out.err then 0 else 1 }

end

end GnuWindows.Peports
