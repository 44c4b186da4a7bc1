/-
  GnuWindows.PkgConfig.Pkgs — the set of packages (`pkgs`), in load order.

  A package is found by its real name through a hash trie, which here holds the index of
  the package in the load order. A pointer to a package is that index. A set carries the
  fact that the trie finds what a search of the list does.

  Proved: `locate_cases`, the two things `locate` can do.
-/
import GnuWindows.PkgConfig.Package

namespace GnuWindows.PkgConfig

open GnuWindows.Lib.HashTrie (Trie)

/-- Where a package is in the load order. -/
def findname (l : List Pkg) (realname : S8) : Option Nat := l.findIdx? fun p => p.realname == realname

/-- The node of a name in the trie. -/
def findpkg (trie : Trie S8 Nat) (realname : S8) : Option Nat :=
  Trie.find hashchild hashnext trie (s8hash realname) realname

structure Pkgs where
  pkgs : Trie S8 Nat
  /-- In the order of the calls of `locate` that added them. -/
  list : List Pkg
  located : ∀ realname, findpkg pkgs realname = findname list realname

theorem findname_append (l : List Pkg) (p : Pkg) (n : S8) :
    findname (l ++ [p]) n = (findname l n).or (if p.realname = n then some l.length else none) := by
  simp only [findname, List.findIdx?_append, List.findIdx?_singleton, beq_iff_eq]
  split <;> simp

theorem findname_modify {f : Pkg → Pkg} (hf : ∀ p, (f p).realname = p.realname) (l : List Pkg) (i : Nat) (n : S8) :
    findname (l.modify i f) n = findname l n := by
  induction l generalizing i with
  | nil => cases i <;> rfl
  | cons p l ih =>
    cases i with
    | zero => simp only [findname, List.modify_zero_cons, List.findIdx?_cons, hf]
    | succ i => simp only [findname, List.modify_succ_cons, List.findIdx?_cons] at ih ⊢; rw [ih]

theorem modify_last (l : List Pkg) (p : Pkg) (f : Pkg → Pkg) : (l ++ [p]).modify l.length f = l ++ [f p] := by
  induction l with
  | nil => rfl
  | cons q l ih => rw [List.cons_append, List.length_cons, List.modify_succ_cons, ih]; rfl

namespace Pkgs

/-- `newpkgs`. -/
def empty : Pkgs := ⟨.leaf, [], fun _ => rfl⟩

def count (t : Pkgs) : Nat := t.list.length

/-- The package a pointer points to. -/
def get (t : Pkgs) (i : Nat) : Pkg := t.list.getD i Pkg.zero

/-- Store through a pointer; the real name stays. -/
def update (t : Pkgs) (i : Nat) (f : Pkg → Pkg) (hf : ∀ p, (f p).realname = p.realname) : Pkgs :=
  ⟨t.pkgs, t.list.modify i f, fun n => (t.located n).trans (findname_modify hf _ _ _).symm⟩

@[simp] theorem update_list (t : Pkgs) (i : Nat) (f : Pkg → Pkg) (hf : ∀ p, (f p).realname = p.realname) :
    (t.update i f hf).list = t.list.modify i f := rfl

/-- Add a package that is zero but for the name. -/
def add (t : Pkgs) (realname : S8) (h : findpkg t.pkgs realname = none) : Pkgs where
  pkgs := Trie.insert hashchild hashnext t.list.length t.pkgs (s8hash realname) realname
  list := t.list ++ [{ Pkg.zero with realname := realname }]
  located n := by
    rw [findname_append, ← t.located]
    by_cases hn : n = realname
    · subst hn
      rw [h, findpkg, Trie.find_insert_self]
      rw [findpkg] at h
      simp [h]
    · rw [findpkg, Trie.find_insert_ne _ _ _ _ _ _ hn, ← findpkg]
      simp [Ne.symm hn]

def locate (t : Pkgs) (realname : S8) : Pkgs × Nat :=
  match h : findpkg t.pkgs realname with
  | some i => (t, i)
  | none => (t.add realname h, t.list.length)

/-- The package is there, or it is added at the end. -/
theorem locate_cases (t : Pkgs) (realname : S8) :
    (∃ i, findname t.list realname = some i ∧ t.locate realname = (t, i)) ∨
      (findname t.list realname = none ∧
        (t.locate realname).1.list = t.list ++ [{ Pkg.zero with realname := realname }] ∧
        (t.locate realname).2 = t.list.length) := by
  rw [← t.located]
  unfold locate
  split
  · rename_i i h; exact Or.inl ⟨i, h, rfl⟩
  · rename_i h; exact Or.inr ⟨h, rfl, rfl⟩

end Pkgs

end GnuWindows.PkgConfig
