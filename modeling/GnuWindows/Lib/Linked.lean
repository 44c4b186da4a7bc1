/-
  GnuWindows.Lib.Linked — singly linked lists with a pointer to their last link.

  Nodes live in a heap that only grows. A list has a pointer to its first node and one to
  the link that the next node goes to (`Slot`): its own, or that of its last node. The
  second one is null until the first node is there.

  `Holds heap list cells`: the list's nodes and their values are `cells`, in order.

  Proved:
  - `push_holds`: a push at the end adds a new node there, and changes no node that is not
    the list's.
  - `pushes_holds`: so do several.
  - `splice_holds`: with nodes in both, one list is put in front of another one, whose end
    stays the end. With no node in the first one there is no last link (`splice_empty`).
-/
import Mathlib.Data.List.Basic
import Mathlib.Data.List.Induction
import Mathlib.Data.List.Nodup

namespace GnuWindows.Lib.Linked

variable {α : Type}

structure Node (α : Type) where
  next : Option Nat
  value : α

abbrev Heap (α : Type) := List (Node α)

/-- A link: the first one of a list, or that of a node. -/
inductive Slot where
  | head
  | next (n : Nat)

structure Anchor where
  head : Option Nat
  tail : Option Slot

def Anchor.empty : Anchor := ⟨none, none⟩

/-- The node's link is set. -/
def link (heap : Heap α) (n : Nat) (p : Option Nat) : Heap α := heap.modify n fun node => { node with next := p }

/-- Write a pointer to a link. -/
def store (heap : Heap α) (list : Anchor) (slot : Slot) (p : Option Nat) : Heap α × Anchor :=
  match slot with
  | .head => (heap, { list with head := p })
  | .next n => (link heap n p, list)

/-- A new node at the end. -/
def push (heap : Heap α) (list : Anchor) (value : α) : Heap α × Anchor :=
  let node := heap.length
  let r := store (heap ++ [⟨none, value⟩]) list (list.tail.getD .head) (some node)
  (r.1, { r.2 with tail := some (.next node) })

def pushes (heap : Heap α) (list : Anchor) (values : List α) : Heap α × Anchor :=
  values.foldl (fun r value => push r.1 r.2 value) (heap, list)

/-- Put `front` in front of `back`; none when there is no last link to write to. -/
def splice (heap : Heap α) (front back : Anchor) : Option (Heap α × Anchor) :=
  front.tail.map fun slot =>
    let r := store heap front slot back.head
    (r.1, { back with head := r.2.head })

/-! ## Segments -/

/-- From a pointer over the cells to another pointer. -/
inductive Seg (heap : Heap α) : Option Nat → List (Nat × α) → Option Nat → Prop
  | nil (p : Option Nat) : Seg heap p [] p
  | cons {n : Nat} {value : α} {next q : Option Nat} {cells : List (Nat × α)} :
      heap[n]? = some ⟨next, value⟩ → Seg heap next cells q → Seg heap (some n) ((n, value) :: cells) q

/-- The nodes of the cells. -/
def nodes (cells : List (Nat × α)) : List Nat := cells.map Prod.fst

theorem link_self (heap : Heap α) (n : Nat) (p : Option Nat) :
    (link heap n p)[n]? = heap[n]?.map fun node => { node with next := p } := List.getElem?_modify_eq ..

theorem link_ne (heap : Heap α) {n m : Nat} (h : n ≠ m) (p : Option Nat) : (link heap n p)[m]? = heap[m]? :=
  List.getElem?_modify_ne _ _ h

theorem nodes_append (a b : List (Nat × α)) : nodes (a ++ b) = nodes a ++ nodes b := List.map_append

theorem mem_nodes_last (a : List (Nat × α)) (c : Nat × α) : c.1 ∈ nodes (a ++ [c]) := by
  rw [nodes_append]
  exact List.mem_append_right _ (List.mem_singleton_self _)

/-- A node at the end is another one than those before it. -/
theorem nodup_nodes_iff {a : List (Nat × α)} {c : Nat × α} :
    (nodes (a ++ [c])).Nodup ↔ c.1 ∉ nodes a ∧ (nodes a).Nodup := by
  rw [nodes_append, ← List.nodup_concat, List.concat_eq_append]
  rfl

namespace Seg

variable {heap heap' : Heap α} {p q r : Option Nat} {a b : List (Nat × α)}

theorem append (ha : Seg heap p a q) (hb : Seg heap q b r) : Seg heap p (a ++ b) r := by
  induction ha with
  | nil => exact hb
  | cons h _ ih => exact .cons h (ih hb)

/-- Only the nodes of a segment matter. -/
theorem congr (h : Seg heap p a q) (hsame : ∀ n ∈ nodes a, heap'[n]? = heap[n]?) : Seg heap' p a q := by
  induction h with
  | nil => exact .nil _
  | cons hn _ ih =>
    refine .cons ?_ (ih fun n hm => hsame n (List.mem_cons_of_mem _ hm))
    rw [hsame _ List.mem_cons_self]
    exact hn

theorem lt_length (h : Seg heap p a q) : ∀ n ∈ nodes a, n < heap.length := by
  induction h with
  | nil => exact fun _ hm => by cases hm
  | cons hn _ ih =>
    intro n hm
    rcases List.mem_cons.mp hm with rfl | hm
    · exact (List.getElem?_eq_some_iff.mp hn).1
    · exact ih n hm

/-- The last node is linked to something else. -/
theorem relink {n : Nat} {value : α} (h : Seg heap p (a ++ [(n, value)]) q) (hn : n ∉ nodes a) (r : Option Nat) :
    Seg (link heap n r) p (a ++ [(n, value)]) r := by
  induction a generalizing p with
  | nil =>
    cases h with
    | cons hcell _ =>
      refine .cons ?_ (.nil r)
      rw [link_self, hcell]
      rfl
  | cons c a ih =>
    have hc : n ≠ c.1 := fun he => hn (he ▸ List.mem_cons_self)
    have hcells : n ∉ nodes a := fun hm => hn (List.mem_cons_of_mem _ hm)
    cases h with
    | cons hcell h =>
      refine .cons ?_ (ih h hcells)
      rw [link_ne heap hc]
      exact hcell

end Seg

/-! ## Lists -/

structure Holds (heap : Heap α) (list : Anchor) (cells : List (Nat × α)) : Prop where
  seg : Seg heap list.head cells none
  distinct : (nodes cells).Nodup
  /-- The link of the last node, or null. -/
  tail : list.tail = cells.getLast?.map fun c => .next c.1

theorem holds_empty (heap : Heap α) : Holds heap .empty [] := ⟨.nil none, List.nodup_nil, rfl⟩

variable {heap : Heap α} {list front back : Anchor} {cells a b : List (Nat × α)}

/-- Nodes that are not the list's are left as they are. -/
theorem Holds.frame {heap' : Heap α} (h : Holds heap list cells) (hsame : ∀ n ∈ nodes cells, heap'[n]? = heap[n]?) :
    Holds heap' list cells := ⟨h.seg.congr hsame, h.distinct, h.tail⟩

theorem Holds.head_eq_none (h : Holds heap list cells) : list.head = none ↔ cells = [] := by
  have hseg := h.seg
  generalize list.head = p at hseg
  cases hseg with
  | nil => exact iff_of_true rfl rfl
  | cons _ _ => exact iff_of_false (by simp) (by simp)

/-- What a push adds, and what it leaves. -/
theorem push_holds (h : Holds heap list cells) (value : α) :
    Holds (push heap list value).1 (push heap list value).2 (cells ++ [(heap.length, value)]) ∧
      (push heap list value).1.length = heap.length + 1 ∧
      ∀ n, n < heap.length → n ∉ nodes cells → (push heap list value).1[n]? = heap[n]? := by
  obtain ⟨hseg, hdistinct, htail⟩ := h
  have hlt := hseg.lt_length
  have hnew : heap.length ∉ nodes cells := fun hm => Nat.lt_irrefl _ (hlt _ hm)
  have hold : ∀ n, n < heap.length → (heap ++ [⟨none, value⟩])[n]? = heap[n]? := fun n hn =>
    List.getElem?_append_left hn
  have hnode : (heap ++ [(⟨none, value⟩ : Node α)])[heap.length]? = some ⟨none, value⟩ := by simp
  have hdistinct' : (nodes (cells ++ [(heap.length, value)])).Nodup := nodup_nodes_iff.mpr ⟨hnew, hdistinct⟩
  have htail' : some (Slot.next heap.length) = (cells ++ [(heap.length, value)]).getLast?.map fun c => .next c.1 := by
    rw [List.getLast?_concat]
    rfl
  cases cells using List.reverseRecOn with
  | nil =>
    have hstore : push heap list value = (heap ++ [⟨none, value⟩], ⟨some heap.length, some (.next heap.length)⟩) := by
      rw [push, htail]
      rfl
    rw [hstore]
    exact ⟨⟨.cons hnode (.nil none), hdistinct', htail'⟩, by simp, fun n hn _ => hold n hn⟩
  | append_singleton cells c =>
    have hstore : push heap list value =
        (link (heap ++ [⟨none, value⟩]) c.1 (some heap.length), ⟨list.head, some (.next heap.length)⟩) := by
      rw [push, htail, List.getLast?_concat]
      rfl
    have hc : c.1 < heap.length := hlt _ (mem_nodes_last cells c)
    rw [hstore]
    refine ⟨⟨?_, hdistinct', htail'⟩, by simp [link], fun n hn hm => ?_⟩
    · -- the old last node is linked to the new one
      have hcells : c.1 ∉ nodes cells := (nodup_nodes_iff.mp hdistinct).1
      refine ((hseg.congr fun n hn => hold n (hlt n hn)).relink hcells _).append (.cons ?_ (.nil none))
      rw [link_ne _ (Nat.ne_of_lt hc)]
      exact hnode
    · have hne : c.1 ≠ n := by
        rintro rfl
        exact hm (mem_nodes_last cells c)
      rw [link_ne _ hne]
      exact hold n hn

/-- Several pushes: the new cells are behind the old ones, in nodes that were not there. -/
theorem pushes_holds (h : Holds heap list cells) (values : List α) :
    ∃ new, Holds (pushes heap list values).1 (pushes heap list values).2 (cells ++ new) ∧ new.map Prod.snd = values ∧
      (∀ n ∈ nodes new, heap.length ≤ n) ∧
      ∀ n, n < heap.length → n ∉ nodes cells → (pushes heap list values).1[n]? = heap[n]? := by
  induction values generalizing heap list cells with
  | nil =>
    refine ⟨[], ?_, rfl, List.forall_mem_nil _, fun _ _ _ => rfl⟩
    rw [List.append_nil]
    exact h
  | cons value values ih =>
    obtain ⟨hpush, hlen, hframe⟩ := push_holds h value
    obtain ⟨new, hnew, hvalues, hge, hframe'⟩ := ih hpush
    refine ⟨(heap.length, value) :: new, ?_, by rw [List.map_cons, hvalues], ?_, ?_⟩
    · rw [List.append_assoc] at hnew
      exact hnew
    · intro n hn
      rcases List.mem_cons.mp hn with rfl | hn
      · exact Nat.le_refl _
      · have := hge n hn
        omega
    · intro n hn hm
      have hne : n ∉ nodes (cells ++ [(heap.length, value)]) := by
        rw [nodes_append, List.mem_append, not_or]
        exact ⟨hm, fun he => Nat.ne_of_lt hn (List.mem_singleton.mp he)⟩
      exact (hframe' n (by omega) hne).trans (hframe n hn hm)

/-! ## One list in front of another -/

theorem splice_empty (h : Holds heap front []) : splice heap front back = none := by
  rw [splice, h.tail]
  rfl

theorem splice_holds (hfront : Holds heap front a) (hback : Holds heap back b) (ha : a ≠ []) (hb : b ≠ [])
    (hapart : ∀ n ∈ nodes a, n ∉ nodes b) : ∃ r, splice heap front back = some r ∧ Holds r.1 r.2 (a ++ b) := by
  obtain ⟨hseg, hdistinct, htail⟩ := hfront
  obtain ⟨hseg', hdistinct', htail'⟩ := hback
  cases a using List.reverseRecOn with
  | nil => exact absurd rfl ha
  | append_singleton a c =>
    rw [List.getLast?_concat] at htail
    have hsplice : splice heap front back = some (link heap c.1 back.head, { back with head := front.head }) := by
      rw [splice, htail]
      rfl
    have hcells : c.1 ∉ nodes a := (nodup_nodes_iff.mp hdistinct).1
    refine ⟨_, hsplice, ?_, ?_, ?_⟩
    · refine (hseg.relink hcells back.head).append (hseg'.congr fun n hn => ?_)
      have hne : c.1 ≠ n := by
        rintro rfl
        exact hapart _ (mem_nodes_last a c) hn
      exact link_ne _ hne _
    · rw [nodes_append]
      exact List.nodup_append.mpr ⟨hdistinct, hdistinct', fun n hn m hm hnm => hapart n hn (hnm ▸ hm)⟩
    · rw [List.getLast?_append_of_ne_nil _ hb]
      exact htail'

end GnuWindows.Lib.Linked
