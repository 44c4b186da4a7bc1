/-
  GnuWindows.VcFilt.Cache — the cache of undecorated names (`alloc`, `s8dup`, `upsert`,
  `undecorate` of vc++filt.c).

  What `UnDecorateSymbolName` writes for a symbol is a parameter. The cache is a hash trie
  from symbols to outputs, and the arena that its keys, nodes and outputs come from may run
  out at each of them. Without a key or a node the trie stays as it was; without an output
  the node has a null one, and the next call tries again.

  Proved: `undecorates_direct`, a sequence of calls gives what the function gives.
-/
import GnuWindows.Lib.HashTrie
import GnuWindows.PkgConfig.Bytes

namespace GnuWindows.VcFilt

open GnuWindows.Lib.HashTrie (Trie)
open GnuWindows.PkgConfig (S8)

def SYMBOL_MAX : Nat := 1 <<< 16

/-! ## The arena -/

/-- The addresses that are free. -/
structure Arena where
  beg : Nat
  fin : Nat
  le : beg ≤ fin

/-- The arena after an allocation from its end, of zeroed memory; `none` when it is out of
    memory. -/
def alloc (a : Arena) (len : Nat) : Option Arena :=
  let available : Int := a.fin - a.beg
  let alignment := (8 - len % 8) % 8
  if _h : available - alignment < len then none else some ⟨a.beg, a.fin - (len + alignment), by omega⟩

/-- A copy, or null. -/
def s8dup (s : S8) (perm : Arena) : Option S8 × Arena :=
  match alloc perm s.length with
  | none => (none, perm)
  | some perm => (some s, perm)

/-! ## The trie -/

def s8hash (s : S8) : UInt64 := s.foldl (fun h c => (h ^^^ c.toUInt64) * 1111111111111111111) 0x100

/-- `h>>62`, the child a hash leads to. -/
def hashchild (h : UInt64) : Fin 4 := ⟨(h >>> 62).toNat % 4, Nat.mod_lt _ (Nat.succ_pos 3)⟩

/-- `h <<= 2`. -/
def hashnext (h : UInt64) : UInt64 := h <<< 2

/-- From an input to its output, which may be null. -/
abbrev Map := Trie S8 (Option S8)

namespace Map

def find (m : Map) (input : S8) : Option (Option S8) := Trie.find hashchild hashnext m (s8hash input) input

/-- A new node, zeroed but for its input. -/
def addnode (m : Map) (input : S8) : Map := Trie.insert hashchild hashnext none m (s8hash input) input

def setoutput (m : Map) (input : S8) (output : Option S8) : Map :=
  Trie.modify hashchild hashnext (fun _ => output) m (s8hash input) input

theorem find_addnode_ne (m : Map) {input k : S8} (h : k ≠ input) : (m.addnode input).find k = m.find k :=
  Trie.find_insert_ne _ _ _ _ _ _ h

theorem find_addnode_self (m : Map) (input : S8) : (m.addnode input).find input = some ((m.find input).getD none) :=
  Trie.find_insert_self _ _ _ _ _ _

theorem find_setoutput_ne (m : Map) {input k : S8} (output : Option S8) (h : k ≠ input) :
    (m.setoutput input output).find k = m.find k := Trie.find_modify_ne _ _ _ _ _ _ h

theorem find_setoutput_self (m : Map) (input : S8) (output : Option S8) :
    (m.setoutput input output).find input = (m.find input).map fun _ => output := Trie.find_modify_self _ _ _ _ _ _

end Map

/-- `sizeof(map)` -/
def sizeofmap : Nat := 64

/-- The output of the node of `input`; `none` when there is no node. -/
def upsert (m : Map) (input : S8) (perm : Arena) : Option (Option S8) × Map × Arena :=
  match m.find input with
  | some output => (some output, m, perm)
  | none =>
    match s8dup input perm with
    | (none, perm) => (none, m, perm)
    | (some input, perm) =>
      match alloc perm sizeofmap with
      | none => (none, m, perm)
      | some perm => (some none, m.addnode input, perm)

/-! ## The cache -/

structure Callcache where
  seen : Map
  perm : Arena
  flags : UInt32
  hits : Nat
  misses : Nat

/-- The arena is what the cache and its buffer leave of it. -/
def newcache (flags : UInt32) (perm : Arena) : Callcache := ⟨.leaf, perm, flags, 0, 0⟩

-- what `UnDecorateSymbolName` writes, for a symbol and flags
variable (undname : S8 → UInt32 → S8)

def undecorate (c : Callcache) (sym : S8) : S8 × Callcache :=
  let (m, seen, perm) := upsert c.seen sym c.perm
  match m with
  | some (some output) => (output, { c with seen, perm, hits := c.hits + 1 })
  | some none =>
    let r := undname sym c.flags
    let (output, perm) := s8dup r perm
    (r, { c with seen := seen.setoutput sym output, perm, misses := c.misses + 1 })
  | none => (undname sym c.flags, { c with seen, perm, misses := c.misses + 1 })

/-- A sequence of calls. -/
def undecorates (c : Callcache) : List S8 → List S8 × Callcache
  | [] => ([], c)
  | sym :: syms =>
    let r := undecorate undname c sym
    let rest := undecorates r.2 syms
    (r.1 :: rest.1, rest.2)

/-! ## What the cache holds -/

/-- An output that is there is the one of its input. -/
def Map.Sound (flags : UInt32) (m : Map) : Prop :=
  ∀ input output, m.find input = some (some output) → output = undname input flags

variable {undname} {flags : UInt32} {m : Map}

theorem sound_leaf : Map.Sound undname flags .leaf := fun _ _ h => nomatch h

/-- A node without an output says nothing. -/
theorem Map.Sound.addnode (h : m.Sound undname flags) (sym : S8) : (m.addnode sym).Sound undname flags := by
  intro input output hfind
  by_cases hi : input = sym
  · subst hi
    rw [find_addnode_self] at hfind
    cases hm : m.find input with
    | none => rw [hm] at hfind; cases hfind
    | some old => exact h input output (by rw [hm]; rwa [hm] at hfind)
  · exact h input output (by rwa [find_addnode_ne m hi] at hfind)

/-- The output may be the one of the input, or null. -/
theorem Map.Sound.setoutput (h : m.Sound undname flags) {sym : S8} {output : Option S8}
    (hout : ∀ r, output = some r → r = undname sym flags) : (m.setoutput sym output).Sound undname flags := by
  intro input r hfind
  by_cases hi : input = sym
  · subst hi
    rw [find_setoutput_self] at hfind
    obtain ⟨old, -, hr⟩ := Option.map_eq_some_iff.mp hfind
    exact hout r hr
  · exact h input r (by rwa [find_setoutput_ne m output hi] at hfind)

theorem s8dup_eq {s r : S8} {perm perm' : Arena} (h : s8dup s perm = (some r, perm')) : r = s := by
  unfold s8dup at h
  split at h
  · cases h
  · exact (Option.some.inj (congrArg Prod.fst h)).symm

/-- Whatever could not be allocated, the trie stays sound, and an output it gives is the
    one of the input. -/
theorem upsert_sound (h : m.Sound undname flags) (sym : S8) (perm : Arena) :
    (upsert m sym perm).2.1.Sound undname flags ∧
      ∀ output, (upsert m sym perm).1 = some (some output) → output = undname sym flags := by
  unfold upsert
  split
  · rename_i output hfind
    exact ⟨h, fun r hr => h sym r (hr ▸ hfind)⟩
  split
  · exact ⟨h, nofun⟩
  rename_i input perm' hdup
  obtain rfl := s8dup_eq hdup
  split
  · exact ⟨h, nofun⟩
  · exact ⟨h.addnode input, nofun⟩

structure Callcache.Sound (undname : S8 → UInt32 → S8) (c : Callcache) : Prop where
  seen : c.seen.Sound undname c.flags

/-- One call gives what the function gives, and is a hit or a call of it. -/
theorem undecorate_direct {c : Callcache} (h : c.Sound undname) (sym : S8) :
    (undecorate undname c sym).1 = undname sym c.flags ∧ (undecorate undname c sym).2.Sound undname ∧
      (undecorate undname c sym).2.flags = c.flags ∧
      (undecorate undname c sym).2.hits + (undecorate undname c sym).2.misses = c.hits + c.misses + 1 := by
  obtain ⟨hseen, hout⟩ := upsert_sound h.seen sym c.perm
  unfold undecorate
  generalize upsert c.seen sym c.perm = r at hseen hout ⊢
  obtain ⟨node, seen, perm⟩ := r
  rcases node with _ | _ | output
  · exact ⟨rfl, ⟨hseen⟩, rfl, rfl⟩
  · -- the node is there, its output may be
    refine ⟨rfl, ⟨hseen.setoutput fun r hr => ?_⟩, rfl, rfl⟩
    exact s8dup_eq (Prod.ext hr rfl)
  · exact ⟨hout output rfl, ⟨hseen⟩, rfl, Nat.add_right_comm _ _ _⟩

theorem undecorates_sound {c : Callcache} (h : c.Sound undname) (syms : List S8) :
    (undecorates undname c syms).1 = syms.map (undname · c.flags) ∧ (undecorates undname c syms).2.Sound undname ∧
      (undecorates undname c syms).2.hits + (undecorates undname c syms).2.misses =
        c.hits + c.misses + syms.length := by
  induction syms generalizing c with
  | nil => exact ⟨rfl, h, rfl⟩
  | cons sym syms ih =>
    obtain ⟨hout, hsound, hflags, hcount⟩ := undecorate_direct h sym
    obtain ⟨houts, hrest, hcounts⟩ := ih hsound
    refine ⟨?_, hrest, ?_⟩
    · rw [undecorates, List.map_cons, ← hout, houts, hflags]
    · rw [undecorates, hcounts, hcount, List.length_cons, Nat.add_right_comm, Nat.add_assoc]

variable (undname flags)

/-- For every sequence of symbols and all that is left of the arena: the calls give what
    `UnDecorateSymbolName` gives for each of the symbols. The cache only saves calls, one
    for each hit. -/
theorem undecorates_direct (perm : Arena) (syms : List S8) :
    (undecorates undname (newcache flags perm) syms).1 = syms.map (undname · flags) ∧
      (undecorates undname (newcache flags perm) syms).2.misses =
        syms.length - (undecorates undname (newcache flags perm) syms).2.hits := by
  have hempty : (newcache flags perm).Sound undname := ⟨sound_leaf⟩
  obtain ⟨houts, -, hcounts⟩ := undecorates_sound hempty syms
  refine ⟨houts, ?_⟩
  have hcounts : _ = 0 + 0 + syms.length := hcounts
  omega

-- the arena has room for the first key and its node, and not for an output
example : (undecorates (fun sym _ => sym ++ sym) (newcache 0 ⟨0, 72, by decide⟩) [[0x3f], [0x3f], [0x40]]).1 =
    [[0x3f, 0x3f], [0x3f, 0x3f], [0x40, 0x40]] := by decide

end GnuWindows.VcFilt
