/-
  GnuWindows.PkgConfig.Env — variable environments (`env`, `insert`, `lookup`).

  An environment is a hash trie from names to values; a null value is `none`. `insert`
  without an arena is `find`: the binding, if there is one. `insert` with an arena gives
  a pointer to the binding, new and null if there was none, and every caller stores
  through it at once: `bind`.
-/
import GnuWindows.Lib.HashTrie
import GnuWindows.PkgConfig.Bytes

namespace GnuWindows.PkgConfig

open GnuWindows.Lib.HashTrie (Trie)

/-- `h>>30`, the child a hash leads to. -/
def hashchild (h : UInt32) : Fin 4 := ⟨(h >>> 30).toNat % 4, Nat.mod_lt _ (Nat.succ_pos 3)⟩

/-- `h <<= 2`. -/
def hashnext (h : UInt32) : UInt32 := h <<< 2

abbrev Env := Trie S8 (Option S8)

namespace Env

def empty : Env := .leaf

/-- `insert(&e, name, 0)`. -/
def find (e : Env) (name : S8) : Option (Option S8) := Trie.find hashchild hashnext e (s8hash name) name

/-- `*insert(&e, name, perm) = value`. -/
def bind (e : Env) (name : S8) (value : Option S8) : Env :=
  Trie.modify hashchild hashnext (fun _ => value) (Trie.insert hashchild hashnext none e (s8hash name) name)
    (s8hash name) name

@[simp] theorem find_empty (name : S8) : find empty name = none := rfl

@[simp] theorem find_bind_self (e : Env) (name : S8) (value : Option S8) :
    (e.bind name value).find name = some value := by
  simp [find, bind, Trie.find_modify_self, Trie.find_insert_self]

theorem find_bind_ne (e : Env) {name name' : S8} (value : Option S8) (h : name' ≠ name) :
    (e.bind name value).find name' = e.find name' := by
  simp [find, bind, Trie.find_modify_ne _ _ _ _ _ _ h, Trie.find_insert_ne _ _ _ _ _ _ h]

theorem find_bind (e : Env) (name name' : S8) (value : Option S8) :
    (e.bind name value).find name' = if name' = name then some value else e.find name' := by
  split
  · rename_i h; rw [h, find_bind_self]
  · rename_i h; exact find_bind_ne e value h

/-- Every value bound has `K`. -/
def All (K : S8 → Prop) (e : Env) : Prop := ∀ name v, e.find name = some (some v) → K v

theorem all_empty (K : S8 → Prop) : All K empty := fun _ _ h => by cases h

theorem All.bind {K : S8 → Prop} {e : Env} (h : e.All K) (name : S8) {value : S8} (hv : K value) :
    (e.bind name (some value)).All K := by
  intro name' v hf
  rw [find_bind] at hf
  split at hf
  · cases hf; exact hv
  · exact h name' v hf

end Env

/-- The global binding, else the package's; null when there is neither, and when the one
    found is null. -/
def lookup (global env : Env) (name : S8) : Option S8 :=
  match global.find name with
  | some s => s
  | none =>
    match env.find name with
    | some s => s
    | none => none

theorem lookup_all {K : S8 → Prop} {global env : Env} (hg : global.All K) (he : env.All K) {name v : S8}
    (h : lookup global env name = some v) : K v := by
  unfold lookup at h
  split at h
  · rename_i s hs; subst h; exact hg name v hs
  · split at h
    · rename_i s hs; subst h; exact he name v hs
    · cases h

end GnuWindows.PkgConfig
