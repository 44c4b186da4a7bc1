/-
  GnuWindows.Lib.HashTrie — a 4-ary trie keyed by the leading digits of a hash.

  A node holds one key; below it a key goes to the child named by the hash's leading
  digit, with that digit shifted out. Keys with equal hashes hang below one another, so
  no digit has to tell them apart. The digits and the shift are parameters: the laws
  below hold for any hash.

  Proved: `find` after `insert` and `modify` is the finite map's (`find_insert_self`,
  `find_insert_ne`, `find_modify_self`, `find_modify_ne`): the binding of the named key
  changes, no other does; and what `find` gives is within any `bound` taken over the
  nodes. A key is where the digits of its hash lead (`Placed`), so it is in one node at
  most (`Placed.nodup`).
-/
import Mathlib.Data.List.FinRange
import Mathlib.Data.List.Nodup
import Mathlib.Tactic.Common

namespace GnuWindows.Lib.HashTrie

inductive Trie (κ α : Type) where
  | leaf
  | node (key : κ) (value : α) (child : Fin 4 → Trie κ α)

namespace Trie

variable {κ α η : Type} [DecidableEq κ] (digit : η → Fin 4) (shift : η → η)

def find : Trie κ α → η → κ → Option α
  | leaf, _, _ => none
  | node key value child, h, k => if key = k then some value else find (child (digit h)) (shift h) k

/-- Create the binding of `k` with value `d`, unless there is one. -/
def insert (d : α) : Trie κ α → η → κ → Trie κ α
  | leaf, _, k => node k d fun _ => leaf
  | node key value child, h, k =>
    if key = k then node key value child
    else node key value fun i => if i = digit h then insert d (child i) (shift h) k else child i

/-- Rewrite the value bound to `k`, if there is one. -/
def modify (f : α → α) : Trie κ α → η → κ → Trie κ α
  | leaf, _, _ => leaf
  | node key value child, h, k =>
    if key = k then node key (f value) child
    else node key value fun i => if i = digit h then modify f (child i) (shift h) k else child i

@[simp] theorem find_leaf (h : η) (k : κ) : find digit shift (leaf : Trie κ α) h k = none := rfl

theorem find_insert_self (d : α) (t : Trie κ α) (h : η) (k : κ) :
    find digit shift (insert digit shift d t h k) h k = some ((find digit shift t h k).getD d) := by
  induction t generalizing h with
  | leaf => simp [insert, find]
  | node key value child ih =>
    by_cases e : key = k
    · simp [insert, find, e]
    · simp [insert, find, e, ih]

theorem find_insert_ne (d : α) (t : Trie κ α) (h h' : η) {k k' : κ} (hk : k' ≠ k) :
    find digit shift (insert digit shift d t h k) h' k' = find digit shift t h' k' := by
  induction t generalizing h h' with
  | leaf => simp [insert, find, Ne.symm hk]
  | node key value child ih =>
    by_cases e : key = k
    · simp [insert, e]
    · simp only [insert, find, e, if_false]
      by_cases e' : key = k'
      · rw [if_pos e', if_pos e']
      · rw [if_neg e', if_neg e']
        split
        · exact ih _ _ _
        · rfl

/-- A binding that is there is not created. -/
theorem insert_of_find (d : α) {t : Trie κ α} {h : η} {k : κ} {value : α}
    (hf : find digit shift t h k = some value) : insert digit shift d t h k = t := by
  induction t generalizing h with
  | leaf => cases hf
  | node key v child ih =>
    rw [insert]
    by_cases e : key = k
    · rw [if_pos e]
    · rw [find, if_neg e] at hf
      rw [if_neg e]
      refine congrArg _ (funext fun i => ?_)
      split
      · rename_i hi
        rw [hi]
        exact ih _ hf
      · rfl

theorem find_modify_self (f : α → α) (t : Trie κ α) (h : η) (k : κ) :
    find digit shift (modify digit shift f t h k) h k = (find digit shift t h k).map f := by
  induction t generalizing h with
  | leaf => rfl
  | node key value child ih =>
    by_cases e : key = k
    · simp [modify, find, e]
    · simp [modify, find, e, ih]

theorem find_modify_ne (f : α → α) (t : Trie κ α) (h h' : η) {k k' : κ} (hk : k' ≠ k) :
    find digit shift (modify digit shift f t h k) h' k' = find digit shift t h' k' := by
  induction t generalizing h h' with
  | leaf => rfl
  | node key value child ih =>
    by_cases e : key = k
    · simp [modify, find, e, Ne.symm hk]
    · simp only [modify, find, e, if_false]
      by_cases e' : key = k'
      · rw [if_pos e', if_pos e']
      · rw [if_neg e', if_neg e']
        split
        · exact ih _ _ _
        · rfl

/-! ## A bound on the values -/

def bound (size : α → Nat) : Trie κ α → Nat
  | leaf => 0
  | node _ value child =>
    max (size value) (max (max (bound size (child 0)) (bound size (child 1)))
      (max (bound size (child 2)) (bound size (child 3))))

theorem find_le_bound (size : α → Nat) (t : Trie κ α) (h : η) (k : κ) {value : α}
    (hf : find digit shift t h k = some value) : size value ≤ t.bound size := by
  induction t generalizing h with
  | leaf => simp at hf
  | node key v child ih =>
    simp only [find] at hf
    simp only [bound]
    split at hf
    · have := Option.some.inj hf; subst this; omega
    · have := ih (digit h) (shift h) hf
      match hd : digit h with
      | 0 | 1 | 2 | 3 => rw [hd] at this; omega

/-! ## Slots -/

/-- The links to the node of `k`, or to where it would be. -/
def slot : Trie κ α → η → κ → List (Fin 4)
  | leaf, _, _ => []
  | node key _ child, h, k => if key = k then [] else digit h :: slot (child (digit h)) (shift h) k

/-- The value in the node that the links lead to. -/
def get : Trie κ α → List (Fin 4) → Option α
  | leaf, _ => none
  | node _ value _, [] => some value
  | node _ _ child, i :: links => get (child i) links

def put (value : α) : Trie κ α → List (Fin 4) → Trie κ α
  | leaf, _ => leaf
  | node key _ child, [] => node key value child
  | node key old child, i :: links => node key old fun j => if j = i then put value (child j) links else child j

theorem get_slot (t : Trie κ α) (h : η) (k : κ) : get t (slot digit shift t h k) = find digit shift t h k := by
  induction t generalizing h with
  | leaf => rfl
  | node key value child ih =>
    rw [slot, find]
    split
    · rfl
    · exact ih _ _

theorem put_slot (value : α) (t : Trie κ α) (h : η) (k : κ) :
    put value t (slot digit shift t h k) = modify digit shift (fun _ => value) t h k := by
  induction t generalizing h with
  | leaf => rfl
  | node key old child ih =>
    rw [slot, modify]
    split
    · rfl
    · rw [put]
      refine congrArg _ (funext fun j => ?_)
      split
      · rename_i hj
        rw [hj]
        exact ih _ _
      · rfl

/-- The node that is created is where the search ended. -/
theorem slot_insert (d : α) (t : Trie κ α) (h : η) (k : κ) :
    slot digit shift (insert digit shift d t h k) h k = slot digit shift t h k := by
  induction t generalizing h with
  | leaf => simp [insert, slot]
  | node key value child ih =>
    rw [insert]
    by_cases e : key = k
    · rw [if_pos e]
    · rw [if_neg e, slot, slot, if_neg e, if_neg e, if_pos rfl, ih]

/-! ## Where the keys are -/

/-- The keys of all nodes. -/
def keys : Trie κ α → List κ
  | leaf => []
  | node key _ child => key :: (List.finRange 4).flatMap fun i => keys (child i)

omit [DecidableEq κ] in
theorem mem_keys_node {key k : κ} {value : α} {child : Fin 4 → Trie κ α} :
    k ∈ keys (node key value child) ↔ k = key ∨ ∃ i, k ∈ keys (child i) := by
  simp [keys]

/-- Below a node there is no key of its own, and every key is in the child that its hash
    leads to. -/
def Placed : Trie κ α → (κ → η) → Prop
  | leaf, _ => True
  | node key _ child, hash =>
    ∀ i, (∀ k ∈ keys (child i), k ≠ key ∧ digit (hash k) = i) ∧ Placed (child i) fun k => shift (hash k)

variable {digit shift}

omit [DecidableEq κ] in
/-- A key cannot be in two children, since its digit leads to one. -/
theorem Placed.nodup {t : Trie κ α} {hash : κ → η} (hp : Placed digit shift t hash) : (keys t).Nodup := by
  induction t generalizing hash with
  | leaf => exact List.nodup_nil
  | node key value child ih =>
    rw [keys, List.nodup_cons, List.nodup_flatMap]
    refine ⟨fun hk => ?_, fun i _ => ih i (hp i).2, ?_⟩
    · obtain ⟨i, -, hk⟩ := List.mem_flatMap.mp hk
      exact ((hp i).1 key hk).1 rfl
    · refine (List.nodup_finRange 4).imp fun {i j} hij k hi hj => hij ?_
      exact ((hp i).1 k hi).2.symm.trans ((hp j).1 k hj).2

theorem mem_keys_insert {d : α} {t : Trie κ α} {h : η} {k k' : κ} (hk : k' ∈ keys (insert digit shift d t h k)) :
    k' = k ∨ k' ∈ keys t := by
  induction t generalizing h with
  | leaf => simpa [insert, keys] using hk
  | node key value child ih =>
    rw [insert] at hk
    split at hk
    · exact Or.inr hk
    · obtain rfl | ⟨i, hi⟩ := mem_keys_node.mp hk
      · exact Or.inr List.mem_cons_self
      · split at hi
        · rcases ih _ hi with hk | hk
          · exact Or.inl hk
          · exact Or.inr (mem_keys_node.mpr (Or.inr ⟨_, hk⟩))
        · exact Or.inr (mem_keys_node.mpr (Or.inr ⟨i, hi⟩))

/-- A new key is put where its own hash leads. -/
theorem Placed.insert {t : Trie κ α} {hash : κ → η} (hp : Placed digit shift t hash) (d : α) (k : κ) :
    Placed digit shift (insert digit shift d t (hash k) k) hash := by
  induction t generalizing hash with
  | leaf => exact fun i => ⟨fun k' hk' => absurd hk' List.not_mem_nil, trivial⟩
  | node key value child ih =>
    rw [Trie.insert]
    split
    · exact hp
    · rename_i hne
      intro i
      by_cases hi : i = digit (hash k)
      · simp only [if_pos hi]
        refine ⟨fun k' hk' => ?_, ih i (hp i).2⟩
        rcases mem_keys_insert hk' with rfl | hk'
        · exact ⟨fun h => hne h.symm, hi.symm⟩
        · exact (hp i).1 k' hk'
      · simp only [if_neg hi]
        exact hp i

omit [DecidableEq κ] in
theorem keys_put (value : α) (t : Trie κ α) (links : List (Fin 4)) : keys (put value t links) = keys t := by
  induction t generalizing links with
  | leaf => rfl
  | node key old child ih =>
    cases links with
    | nil => rfl
    | cons i links =>
      rw [put, keys, keys]
      refine congrArg _ (List.flatMap_congr fun j _ => ?_)
      split
      · exact ih j links
      · rfl

omit [DecidableEq κ] in
theorem Placed.put {t : Trie κ α} {hash : κ → η} (hp : Placed digit shift t hash) (value : α) (links : List (Fin 4)) :
    Placed digit shift (put value t links) hash := by
  induction t generalizing hash links with
  | leaf => trivial
  | node key old child ih =>
    cases links with
    | nil => exact hp
    | cons i links =>
      intro j
      by_cases hj : j = i
      · simp only [if_pos hj]
        refine ⟨fun k hk => ?_, ih j (hp j).2 links⟩
        rw [keys_put] at hk
        exact (hp j).1 k hk
      · simp only [if_neg hj]
        exact hp j

end Trie

end GnuWindows.Lib.HashTrie
