/-
  GnuWindows.PkgConfig.Expand — `expand`: variable references in a string.

  The code works off an array of 128 pending slices. It takes the top one, copies it to
  `out` up to the first `${` or `$$`, pushes what follows and, for a reference, the value
  over it. What is written to `out` is a byte string here: `prints8` appends.
-/
import GnuWindows.Lib.BoundedStack
import GnuWindows.PkgConfig.Package

namespace GnuWindows.PkgConfig

open GnuWindows.Lib.BoundedStack

/-- The inner loop: the bytes before the first `${` or `$$`, whether it is a `${`, and
    the bytes after it. -/
def finddollar : S8 → Option (S8 × Bool × S8)
  | c :: d :: t =>
    if c == 0x24 && d == 0x7b then some ([], true, t)
    else if c == 0x24 && d == 0x24 then some ([], false, t)
    else (finddollar (d :: t)).map fun r => (c :: r.1, r.2)
  | _ => none

/-- The name in `${name}`: up to the next closing brace or the end. -/
def refname (t : S8) : S8 := t.takeWhile (· != 0x7d)

/-- What follows the closing brace, or nothing. -/
def reftail (t : S8) : S8 := t.drop ((refname t).length + 1)

structure ExpandState where
  /-- The pending slices, top first. -/
  stack : List S8
  out : S8

structure Expanded where
  /-- What was written to `out`, also by a run that failed. -/
  out : S8
  fail : Option Fail

def failrecursion (err : Errbuf) (p : Pkg) : Fail :=
  diagnose err (S "exceeded max recursion depth in '" ++ p.path ++ S "'\n")

def failundefined (err : Errbuf) (p : Pkg) (name : S8) : Fail :=
  diagnose err (S "undefined variable '" ++ name ++ S "' in '" ++ p.path ++ S "'\n")

variable (err : Errbuf) (global : Env) (p : Pkg)

/-- One turn of the outer loop; `top` is `rest.length - 1` once the top slice is taken. -/
def expandStep (st : ExpandState) : Next ExpandState Expanded :=
  match st.stack with
  | [] => .stop ⟨st.out, none⟩
  | s :: rest =>
    match finddollar s with
    | none => .go ⟨rest, st.out ++ s⟩
    | some (head, true, t) =>
      if 127 ≤ rest.length then .stop ⟨st.out, some (failrecursion err p)⟩
      else
        match lookup global p.env (refname t) with
        | none => .stop ⟨st.out ++ head, some (failundefined err p (refname t))⟩
        | some value => .go ⟨value :: reftail t :: rest, st.out ++ head⟩
    | some (head, false, t) => .go ⟨t :: rest, st.out ++ head ++ [0x24]⟩

theorem finddollar_some {s head t : S8} {b : Bool} (h : finddollar s = some (head, b, t)) :
    s = head ++ 0x24 :: (if b then 0x7b else 0x24) :: t := by
  induction s using finddollar.induct generalizing head with
  | case1 c d u hc => simp_all [finddollar]
  | case2 c d u h1 hc => simp_all [finddollar]
  | case3 c d u h1 h2 ih =>
    rw [finddollar, if_neg h1, if_neg h2, Option.map_eq_some_iff] at h
    obtain ⟨⟨head', b', t'⟩, hr, he⟩ := h
    simp only [Prod.mk.injEq] at he
    obtain ⟨rfl, rfl, rfl⟩ := he
    rw [ih hr, List.cons_append]
  | case4 s hs =>
    unfold finddollar at h
    split at h
    · exact absurd rfl (hs _ _ _)
    · cases h

/-- A reference leaves less of the slice than it found. -/
theorem reftail_lt (t : S8) : (reftail t).length ≤ t.length := by
  simp [reftail]

/-- A bound on the lengths of the values a reference can push. -/
def valuebound (global env : Env) : Nat :=
  max (global.bound fun v => (bytes v).length) (env.bound fun v => (bytes v).length)

theorem lookup_length {global env : Env} {name value : S8} (h : lookup global env name = some value) :
    value.length ≤ valuebound global env := by
  unfold lookup at h
  split at h
  · rename_i s hs
    subst h
    have := Lib.HashTrie.Trie.find_le_bound hashchild hashnext (fun v => (bytes v).length) global _ _ hs
    simp only [bytes_some] at this
    unfold valuebound; omega
  · split at h
    · rename_i s hs
      subst h
      have := Lib.HashTrie.Trie.find_le_bound hashchild hashnext (fun v => (bytes v).length) env _ _ hs
      simp only [bytes_some] at this
      unfold valuebound; omega
    · cases h

/-- A slice counts one more than its bytes: taking an empty one is a step too. -/
def slicesizes (stack : List S8) : List Nat := stack.map (·.length + 1)

theorem expandStep_moves {st st' : ExpandState} (h : expandStep err global p st = .go st') :
    Move 128 (· ≤ valuebound global p.env + 1) (slicesizes st'.stack) (slicesizes st.stack) := by
  obtain ⟨stack, out⟩ := st
  cases stack with
  | nil => simp [expandStep] at h
  | cons s rest =>
    simp only [expandStep] at h
    split at h
    · simp only [Next.go.injEq] at h; subst h; exact .pop _ _
    · rename_i head t hd
      have hs := congrArg List.length (finddollar_some hd)
      simp only [List.length_append, List.length_cons] at hs
      split at h
      · cases h
      · split at h
        · cases h
        · rename_i hlen value hv
          simp only [Next.go.injEq] at h
          subst h
          have hvl := lookup_length hv
          have htl := reftail_lt t
          refine Move.push [value.length + 1] (slicesizes rest)
            (show (reftail t).length + 1 < s.length + 1 by omega) ?_ ?_
          · intro x hx; simp only [List.mem_singleton] at hx; omega
          · simp only [slicesizes, List.length_append, List.length_cons, List.length_nil, List.length_map]; omega
    · rename_i head t hd
      have hs := congrArg List.length (finddollar_some hd)
      simp only [List.length_append, List.length_cons] at hs
      simp only [Next.go.injEq] at h
      subst h
      exact .shrink _ (show t.length + 1 < s.length + 1 by omega)

def expandMachine : Machine 128 (· ≤ valuebound global p.env + 1) ExpandState Expanded where
  step := expandStep err global p
  size st := slicesizes st.stack
  moves := expandStep_moves err global p

/-- Enough turns for any string (`expand_run`). -/
def expandfuel (str : S8) : Nat := weight 128 (valuebound global p.env + 1 + 1) [str.length + 1] + 1

def expand (str : S8) : Expanded :=
  ((expandMachine err global p).runN (expandfuel global p str) ⟨[str], []⟩).getD ⟨[], none⟩

theorem expand_run (str : S8) : expand err global p str = (expandMachine err global p).run ⟨[str], []⟩ := by
  have hpos : ∀ st, ∀ a ∈ (expandMachine err global p).size st, 0 < a := by
    intro st a ha
    obtain ⟨s, _, rfl⟩ := List.mem_map.mp ha
    omega
  have h := (expandMachine err global p).runN_weight hpos ⟨[str], []⟩
  unfold expand expandfuel
  rw [show [str.length + 1] = (expandMachine err global p).size ⟨[str], []⟩ from rfl, h, Option.getD_some]

end GnuWindows.PkgConfig
