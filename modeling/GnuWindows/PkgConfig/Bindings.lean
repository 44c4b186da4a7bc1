/-
  GnuWindows.PkgConfig.Bindings — sequences of `insert` and `lookup`.

  `insert` gives a pointer to a binding. With an arena there always is one, and the caller
  stores through it; without an arena it only looks. A pointer is the links from the root
  to its node. A hash has 16 digits; after them it is 0, and names with equal hashes hang
  below one another in the same child.

  Proved: `calls_map`, a sequence of calls gives a finite map.
-/
import GnuWindows.PkgConfig.Env
import Mathlib.Data.List.Induction

namespace GnuWindows.PkgConfig

open GnuWindows.Lib.HashTrie (Trie)

namespace Env

/-- The pointer, null for `none`, and the environment. -/
def insert (e : Env) (name : S8) (perm : Bool) : Option (List (Fin 4)) × Env :=
  let slot := Trie.slot hashchild hashnext e (s8hash name) name
  match Trie.get e slot with
  | some _ => (some slot, e)
  | none => if perm then (some slot, Trie.insert hashchild hashnext none e (s8hash name) name) else (none, e)

inductive Call where
  /-- With an arena; the value is stored. -/
  | bind (name : S8) (value : Option S8)
  /-- Without one. -/
  | find (name : S8)

/-- What the pointer points to, before a value is stored. -/
def call (e : Env) : Call → Option (Option S8) × Env
  | .bind name value =>
    match insert e name true with
    | (some slot, e) => (Trie.get e slot, Trie.put value e slot)
    | (none, e) => (none, e)
  | .find name =>
    match insert e name false with
    | (some slot, e) => (Trie.get e slot, e)
    | (none, e) => (none, e)

/-- The environment after a sequence of calls. -/
def after (cs : List Call) : Env := cs.foldl (fun e c => (call e c).2) empty

/-- The value that was stored last under the name. -/
def laststored (name : S8) (cs : List Call) : Option (Option S8) :=
  (cs.filterMap fun
    | .bind name' value => if name' = name then some value else none
    | .find _ => none).getLast?

/-! ## One call -/

theorem get_slot (e : Env) (name : S8) :
    Trie.get e (Trie.slot hashchild hashnext e (s8hash name) name) = e.find name :=
  Trie.get_slot _ _ _ _ _

theorem call_find (e : Env) (name : S8) : call e (.find name) = (e.find name, e) := by
  rw [call, insert, get_slot]
  cases h : e.find name with
  | none => rfl
  | some value =>
    simp only
    rw [get_slot, h]

/-- The binding that is created has a null value until one is stored. -/
theorem call_bind (e : Env) (name : S8) (value : Option S8) :
    call e (.bind name value) = (some ((e.find name).getD none), e.bind name value) := by
  rw [call, insert, get_slot, bind]
  cases h : e.find name with
  | none =>
    simp only [if_true]
    rw [← Trie.slot_insert hashchild hashnext none e, Trie.get_slot, Trie.put_slot, Trie.find_insert_self]
    exact congrArg (fun old => (some (Option.getD old none), _)) h
  | some old =>
    simp only
    rw [get_slot, h, Trie.put_slot, Trie.insert_of_find hashchild hashnext none h]
    rfl

/-! ## A sequence of calls -/

theorem after_concat (cs : List Call) (c : Call) : after (cs ++ [c]) = (call (after cs) c).2 := by
  rw [after, List.foldl_append]
  rfl

theorem laststored_bind (name name' : S8) (value : Option S8) (cs : List Call) :
    laststored name (cs ++ [.bind name' value]) = if name = name' then some value else laststored name cs := by
  rw [laststored, List.filterMap_append]
  by_cases h : name = name'
  · simp [h]
  · simp [h, Ne.symm h, laststored]

theorem laststored_find (name name' : S8) (cs : List Call) :
    laststored name (cs ++ [.find name']) = laststored name cs := by
  rw [laststored, List.filterMap_append]
  simp [laststored]

theorem find_after (cs : List Call) (name : S8) : (after cs).find name = laststored name cs := by
  induction cs using List.reverseRecOn with
  | nil => rfl
  | append_singleton cs c ih =>
    rw [after_concat]
    cases c with
    | bind name' value => rw [call_bind, find_bind, laststored_bind, ih]
    | find name' => rw [call_find, laststored_find, ih]

/-- Every name is where its hash leads. -/
theorem placed_after (cs : List Call) : Trie.Placed hashchild hashnext (after cs) s8hash := by
  induction cs using List.reverseRecOn with
  | nil => trivial
  | append_singleton cs c ih =>
    rw [after_concat]
    cases c with
    | bind name value =>
      rw [call_bind, bind, ← Trie.put_slot]
      exact (ih.insert none name).put value _
    | find name =>
      rw [call_find]
      exact ih

/-- For every sequence of calls, also over names with equal hashes: a name has the value
    that was stored last under it, or no binding when none was, which is what a call gives
    and what `lookup` finds. A call without an arena changes nothing, one with an arena no
    other binding, and no two nodes have the same name. -/
theorem calls_map (cs : List Call) :
    (∀ name, (after cs).find name = laststored name cs) ∧
      (∀ name value, (call (after cs) (.bind name value)).1 = some ((laststored name cs).getD none) ∧
        (after (cs ++ [.bind name value])).find name = some value ∧
        ∀ other, other ≠ name → (after (cs ++ [.bind name value])).find other = (after cs).find other) ∧
      (∀ name, (call (after cs) (.find name)).1 = laststored name cs ∧ after (cs ++ [.find name]) = after cs) ∧
      (∀ cs' name, lookup (after cs) (after cs') name =
        ((laststored name cs).or (laststored name cs')).getD none) ∧
      (Trie.keys (after cs)).Nodup := by
  refine ⟨find_after cs, fun name value => ⟨?_, ?_, fun other hother => ?_⟩, fun name => ⟨?_, ?_⟩,
    fun cs' name => ?_, (placed_after cs).nodup⟩
  · rw [call_bind, find_after]
  · rw [after_concat, call_bind, find_bind_self]
  · rw [after_concat, call_bind, find_bind_ne _ _ hother]
  · rw [call_find, find_after]
  · rw [after_concat, call_find]
  · rw [lookup, find_after, find_after]
    cases laststored name cs with
    | none => cases laststored name cs' <;> rfl
    | some value => rfl

end Env

end GnuWindows.PkgConfig
