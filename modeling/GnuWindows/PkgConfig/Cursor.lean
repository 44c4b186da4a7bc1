/-
  GnuWindows.PkgConfig.Cursor — the parser with its cursor (`parsepackage`, `escaped`).

  Here pointers into the source are positions, and what the code takes for granted is
  checked: a byte is read before the end, a slice ends between its start and the end, and
  each turn of a loop that goes on brings the cursor forward, to the end at most. A check
  that fails is a fault.

  That there is no fault, and the result is the one of the parser on lists, is proved in
  `CursorProofs`.
-/
import GnuWindows.Lib.Scan
import GnuWindows.PkgConfig.Parse

namespace GnuWindows.PkgConfig.Cursor

open GnuWindows.Lib.Scan

inductive Fault where
  /-- A byte at or past the end is read. -/
  | past
  /-- A slice does not end between its start and the end. -/
  | backwards
  /-- A loop goes on without bringing the cursor forward, or past the end. -/
  | stuck

variable (src : S8)

def read (p : Nat) : Except Fault UInt8 :=
  match src[p]? with
  | some c => .ok c
  | none => .error .past

def s8span (beg fin : Nat) : Except Fault S8 :=
  if beg ≤ fin ∧ fin ≤ src.length then .ok ((src.take fin).drop beg) else .error .backwards

/-- A loop from a state with a cursor. -/
def scan {τ ρ : Type} (pos : τ → Nat) (turn : τ → Except Fault (τ ⊕ ρ)) (t : τ) : Except Fault ρ :=
  loop src.length pos .stuck turn t

/-- `inside && *p=='#'` -/
def hashat (inside : Bool) (p : Nat) : Except Fault Bool :=
  if inside then do return (← read src p) == 0x23
  else return false

/-! ## The loops of one line -/

/-- `for (; p<e && whitespace(*p); p++) {}` -/
def spaceturn (p : Nat) : Except Fault (Nat ⊕ Nat) :=
  if p < src.length then do
    let c ← read src p
    return if whitespace c then .inl (p + 1) else .inr p
  else return .inr p

def skipspace (p : Nat) : Except Fault Nat := scan src id (spaceturn src) p

/-- `while (p<e && *p++!='\n') {}` -/
def commentturn (p : Nat) : Except Fault (Nat ⊕ Nat) :=
  if p < src.length then do
    let c ← read src p
    return if c == 0x0a then .inr (p + 1) else .inl (p + 1)
  else return .inr p

def skipline (p : Nat) : Except Fault Nat := scan src id (commentturn src) p

/-- The cursor, where the name ends and the byte read last. -/
structure Name where
  p : Nat
  fin : Nat
  c : UInt8

def nameturn (t : Name) : Except Fault (Name ⊕ Name) :=
  if t.p < src.length then do
    let c ← read src t.p
    let p := t.p + 1
    if c == 0x0a || c == 0x3d || c == 0x3a then return .inr ⟨p, t.fin, c⟩
    else return .inl ⟨p, if whitespace c then t.fin else p, c⟩
  else return .inr t

def scanname (p : Nat) : Except Fault Name := scan src Name.p (nameturn src) ⟨p, p, 0⟩

/-- Leading space; newlines may be escaped with a backslash. -/
def leadturn (p : Nat) : Except Fault (Nat ⊕ Nat) :=
  if p < src.length then do
    let c ← read src p
    if c == 0x5c then
      let r := escaped (← s8span src p src.length)
      return if r ≠ 0 then .inl (p + r) else .inr p
    else return if c == 0x0a || !whitespace c then .inr p else .inl (p + 1)
  else return .inr p

def skiplead (p : Nat) : Except Fault Nat := scan src id (leadturn src) p

/-- The cursor, where the value ends and whether there are escapes to strip. -/
structure Value where
  p : Nat
  fin : Nat
  cleanup : Bool

/-- A backslash at the cursor: before the loop's `p++`. -/
def slashturn (t : Value) : Except Fault Value := do
  -- an escaped hash is included in the token and skipped over
  let hash ← hashat src (t.p < src.length - 1) (t.p + 1)
  let t : Value := if hash then ⟨t.p + 1, t.p + 2, true⟩ else t
  let r := escaped (← s8span src t.p src.length)
  return if r ≠ 0 then ⟨t.p + (r - 1), t.fin, true⟩ else t

def valueturn (t : Value) : Except Fault (Value ⊕ Value) :=
  if t.p < src.length then do
    let c ← read src t.p
    if c == 0x0a then return .inr t
    else if c == 0x23 then
      let p ← skipline src t.p
      return .inr { t with p }
    else if c == 0x5c then
      let t ← slashturn src t
      return .inl { t with p := t.p + 1 }
    else return .inl { t with p := t.p + 1, fin := if whitespace c then t.fin else t.p + 1 }
  else return .inr t

def scanvalue (p : Nat) : Except Fault Value := scan src Value.p (valueturn src) ⟨p, p, false⟩

/-- The value of a field, in the slice from `beg`. -/
def contents (beg : Nat) (v : Value) : Except Fault S8 := do
  let field ← s8span src beg v.fin
  return if v.cleanup then stripescapes field else field

/-! ## The lines -/

/-- The package so far, and the cursor. -/
structure Line where
  pkg : Pkg
  p : Nat

/-- From the delimiter on, for a field that is stored or not. -/
def fieldturn (p : Nat) (store : Option (S8 → Pkg)) (pkg : Pkg) : Except Fault (Line ⊕ Parseresult) := do
  let beg ← skiplead src p
  let v ← scanvalue src beg
  match store with
  | some store => return .inl ⟨store (← contents src beg v), v.p⟩
  | none => return .inl ⟨pkg, v.p⟩

def lineturn (t : Line) : Except Fault (Line ⊕ Parseresult) :=
  if t.p < src.length then do
    let pkg := t.pkg
    let p ← skipspace src t.p
    if ← hashat src (p < src.length) p then
      let p ← skipline src p
      return .inl ⟨pkg, p⟩
    else
      let line ← scanname src p
      let name ← s8span src p line.fin
      if line.c == 0x3d then
        match pkg.env.find name with
        | some (some _) => return .inr (.dupvariable name)
        | _ => fieldturn src line.p (some fun value => { pkg with env := pkg.env.bind name (some value) }) pkg
      else if line.c == 0x3a then
        match fieldbyname name with
        | some i =>
          if (pkg.field i).isSome then return .inr (.dupfield name)
          else fieldturn src line.p (some fun value => pkg.setField i (some value)) pkg
        | none => fieldturn src line.p none pkg
      else return .inl ⟨pkg, line.p⟩
  else return .inr (.ok t.pkg)

def parsepackage : Except Fault Parseresult :=
  scan src Line.p (lineturn src) ⟨{ Pkg.zero with contents := some src }, 0⟩

end GnuWindows.PkgConfig.Cursor
