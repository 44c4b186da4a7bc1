/-
  GnuWindows.PkgConfig.Args — the arguments printed for --cflags and --libs.

  The arguments of all fields are collected in order (`appendfield`), with a hash trie
  from arguments to the position each is printed at, biased by 1: 0 is none, -1 excluded.
  `writeargs` prints them.
-/
import GnuWindows.Lib.HashTrie
import GnuWindows.PkgConfig.Dequote
import GnuWindows.PkgConfig.Env
import GnuWindows.PkgConfig.Package

namespace GnuWindows.PkgConfig

open GnuWindows.Lib.HashTrie (Trie)

inductive Filter where
  | any
  | I
  | L
  | l
  | otherC
  | otherL
  deriving DecidableEq

def filterok (f : Filter) (arg : S8) : Bool :=
  match f with
  | .any => true
  | .I => startswith arg (S "-I")
  | .L => startswith arg (S "-L")
  | .l => startswith arg (S "-l")
  | .otherC => !startswith arg (S "-I")
  | .otherL => !startswith arg (S "-L") && !startswith arg (S "-l")

/-- What is printed for an argument in the syntax of msvc. -/
def msvcize (arg : S8) : S8 :=
  if startswith arg (S "-L") then S "/libpath:" ++ arg.drop 2
  else if startswith arg (S "-I") then S "/I" ++ arg.drop 2
  else if startswith arg (S "-l") then arg.drop 2 ++ S ".lib"
  else if startswith arg (S "-D") then S "/D" ++ arg.drop 2
  else if arg == S "-mwindows" then S "/subsystem:windows"
  else if arg == S "-mconsole" then S "/subsystem:console"
  else arg

/-! ## Positions -/

abbrev Argpos := Trie S8 Int

namespace Argpos

/-- `findargpos(&m, arg, 0)`: the position, if there is a node. -/
def find (m : Argpos) (arg : S8) : Option Int := Trie.find hashchild hashnext m (s8hash arg) arg

/-- `findargpos(&m, arg, perm)`, for the node it creates. -/
def insert (m : Argpos) (arg : S8) : Argpos := Trie.insert hashchild hashnext 0 m (s8hash arg) arg

/-- `n->position = position`. -/
def set (m : Argpos) (arg : S8) (position : Int) : Argpos :=
  Trie.modify hashchild hashnext (fun _ => position) m (s8hash arg) arg

@[simp] theorem find_leaf (arg : S8) : find .leaf arg = none := rfl

theorem find_insert (m : Argpos) (arg arg' : S8) :
    (m.insert arg).find arg' = if arg' = arg then some ((m.find arg).getD 0) else m.find arg' := by
  split
  · rename_i h; rw [h]; exact Trie.find_insert_self _ _ _ _ _ _
  · rename_i h; exact Trie.find_insert_ne _ _ _ _ _ _ h

theorem find_set (m : Argpos) (arg arg' : S8) (position : Int) :
    (m.set arg position).find arg' = if arg' = arg then (m.find arg).map fun _ => position else m.find arg' := by
  split
  · rename_i h; rw [h]; exact Trie.find_modify_self _ _ _ _ _ _
  · rename_i h; exact Trie.find_modify_ne _ _ _ _ _ _ h

end Argpos

structure Args where
  list : List S8
  positions : Argpos
  count : Nat

def Args.empty : Args := ⟨[], .leaf, 0⟩

/-- Not "-I" or "-L" with a detached argument. -/
def dedupable (arg : S8) : Bool :=
  if arg.length < 3 || arg.head? != some 0x2d then false
  else if arg == S "-pthread" then true
  else (S "DILflm").any fun flag => arg.tail.head? == some flag

/-- A flag that is counted, with something attached. -/
theorem dedupable_flag {c d : UInt8} {rest : S8} (hc : c ∈ S "DILflm") : dedupable (0x2d :: c :: d :: rest) = true := by
  have hany : (S "DILflm").any (fun flag => (0x2d :: c :: d :: rest).tail.head? == some flag) = true :=
    List.any_eq_true.mpr ⟨c, hc, by simp⟩
  unfold dedupable
  rw [if_neg (by simp), hany]
  split <;> rfl

def appendarg (args : Args) (arg : S8) : Args :=
  let position := args.count
  let positions :=
    if dedupable arg then
      let m := args.positions.insert arg
      if m.find arg == some 0 || startswith arg (S "-l") then m.set arg (1 + position) else m
    else args.positions
  ⟨args.list ++ [arg], positions, position + 1⟩

def excludearg (args : Args) (arg : S8) : Args :=
  { args with positions := (args.positions.insert arg).set arg (-1) }

/-- Is this the correct position for the given argument? -/
def inposition (args : Args) (arg : S8) (position : Nat) : Bool :=
  match args.positions.find arg with
  | none => true
  | some n => n == position + 1

/-! ## The field writer -/

structure Fieldwriter where
  args : Args
  filter : Filter
  msvc : Bool
  delim : UInt8

def newfieldwriter (f : Filter) : Fieldwriter := ⟨Args.empty, f, false, 0⟩

/-- The system path's directories, excluded as the arguments they would be printed as. -/
def insertsyspath (w : Fieldwriter) (path : S8) (delim flag : UInt8) : Fieldwriter :=
  if _h : path = [] then w
  else
    let c := s8cut path delim
    if c.head = [] then insertsyspath w c.tail delim flag
    else
      -- process as an argument, as though being printed
      let dr := dequote ([0x2d, flag] ++ s8pathencode c.head)
      if dr.ok && dr.tail.isEmpty then
        insertsyspath { w with args := excludearg w.args dr.arg } c.tail delim flag
      else insertsyspath w c.tail delim flag
termination_by path.length
decreasing_by all_goals exact s8cut_tail_lt _ _h

def failquote (err : Errbuf) (p : Pkg) : Fail :=
  diagnose err (S "unmatched quote in '" ++ p.realname ++ S "'\n")

def appendfield (err : Errbuf) (w : Fieldwriter) (p : Pkg) (field : S8) : Except Fail Fieldwriter :=
  if _h : field = [] then .ok w
  else
    let r := dequote field
    if _hok : r.ok = true then
      appendfield err (if filterok w.filter r.arg then { w with args := appendarg w.args r.arg } else w) p r.tail
    else .error (failquote err p)
termination_by field.length
decreasing_by exact dequote_tail_lt _h _hok

/-- The loop of `writeargs` from a position on: the text, and the count of arguments
    printed. -/
def writeloop (w : Fieldwriter) (delim : UInt8) : List S8 → Nat → Nat → S8 × Nat
  | [], _, argcount => ([], argcount)
  | arg :: list, position, argcount =>
    if inposition w.args arg position then
      let r := writeloop w delim list (position + 1) (argcount + 1)
      ((if argcount ≠ 0 then [delim] else []) ++ (if w.msvc then msvcize arg else arg) ++ r.1, r.2)
    else writeloop w delim list (position + 1) argcount

def writeargs (w : Fieldwriter) (argcount : Nat) : S8 × Nat :=
  writeloop w (if w.delim ≠ 0 then w.delim else 0x20) w.args.list 0 argcount

end GnuWindows.PkgConfig
