/-
  GnuWindows.PkgConfig.SearchList — the list of directories to search, node by node.

  `appendpath` and `prependpath` on nodes in memory, with the head and the tail pointer of
  `s8list`. The tail is null until the first node is there, and `prependpath` writes
  through the tail of a temporary list. `Search` of `PkgConfig.Find` holds the directories
  themselves.

  Proved:
  - `splitpath_eq`: the directories of a path are its components that are not empty.
  - `appendpath_represents`, `prependpath_represents`: the calls on nodes are the calls on
    directories, and fail together.
  - `calls_correct_iff`: after any calls the list is what it should be exactly when no path
    without a component is put in front of a list that has a directory. Then there is no
    last link to write to.
-/
import GnuWindows.Lib.Linked
import GnuWindows.PkgConfig.Find
import Mathlib.Data.List.TakeWhile

namespace GnuWindows.PkgConfig

/-! ## Components -/

/-- What is between the delimiters of a path, if anything. -/
def components (path : S8) (delim : UInt8) : List S8 := (path.splitOn delim).filter (· ≠ [])

theorem s8cut_of_not_mem {s : S8} {delim : UInt8} (h : delim ∉ s) : s8cut s delim = ⟨s, [], false⟩ := by
  have hall : ∀ c ∈ s, (c != delim) = true := fun c hc => bne_iff_ne.mpr fun he => h (he ▸ hc)
  rw [s8cut, List.takeWhile_eq_self_iff.mpr hall]
  simp

theorem s8cut_append_cons {s : S8} {delim : UInt8} (h : delim ∉ s) (rest : S8) :
    s8cut (s ++ delim :: rest) delim = ⟨s, rest, true⟩ := by
  have hall : ∀ c ∈ s, (c != delim) = true := fun c hc => bne_iff_ne.mpr fun he => h (he ▸ hc)
  have htake : (s ++ delim :: rest).takeWhile (· != delim) = s := by
    rw [List.takeWhile_append_of_pos hall]
    simp
  simp [s8cut, htake]

theorem splitpath_eq (path : S8) (delim : UInt8) : splitpath path delim = components path delim := by
  induction path using splitpath.induct delim with
  | case1 =>
    rw [splitpath, dif_pos rfl]
    rfl
  | case2 path hpath c ih =>
    rw [splitpath, dif_neg hpath]
    by_cases hmem : delim ∈ path
    · obtain ⟨head, rest, rfl, hhead⟩ := List.eq_append_cons_of_mem hmem
      have hc : c = ⟨head, rest, true⟩ := s8cut_append_cons hhead rest
      rw [hc] at ih
      simp only [s8cut_append_cons hhead rest, ih, components, List.splitOn_append_cons_self_of_not_mem hhead]
      by_cases hnil : head = []
      · simp [hnil]
      · simp [hnil]
    · have hc : c = ⟨path, [], false⟩ := s8cut_of_not_mem hmem
      rw [hc] at ih
      simp only [s8cut_of_not_mem hmem, ih, components, List.splitOn_eq_singleton hmem]
      simp [hpath]

theorem prependpath_eq (dirs : Search) (path : S8) :
    prependpath dirs path =
      if dirs.list = [] ∨ components path dirs.delim ≠ [] then
        some { dirs with list := components path dirs.delim ++ dirs.list }
      else none := by
  rw [prependpath, appendpath, appendpath, newsearch, splitpath_eq]
  by_cases hdirs : dirs.list = [] <;> by_cases hpath : components path dirs.delim = [] <;> simp [hdirs, hpath]

/-! ## Nodes -/

namespace Nodes

open GnuWindows.Lib.Linked

structure Search where
  list : Anchor
  delim : UInt8

def newsearch (delim : UInt8) : Search := ⟨.empty, delim⟩

def append (heap : Heap S8) (list : Anchor) (str : S8) : Heap S8 × Anchor := push heap list str

def appendpath (heap : Heap S8) (dirs : Search) (path : S8) : Heap S8 × Search :=
  if _h : path = [] then (heap, dirs)
  else
    let c := s8cut path dirs.delim
    let r := if c.head ≠ [] then append heap dirs.list c.head else (heap, dirs.list)
    appendpath r.1 { dirs with list := r.2 } c.tail
termination_by path.length
decreasing_by exact s8cut_tail_lt _ _h

/-- The second branch transplants a temporary list in front; `none` is the write through
    its null tail. -/
def prependpath (heap : Heap S8) (dirs : Search) (path : S8) : Option (Heap S8 × Search) :=
  match dirs.list.head with
  | none => some (appendpath heap dirs path)
  | some _ =>
    let temp := appendpath heap (newsearch dirs.delim) path
    (splice temp.1 temp.2.list dirs.list).map fun r => (r.1, { dirs with list := r.2 })

theorem appendpath_eq (heap : Heap S8) (dirs : Search) (path : S8) :
    appendpath heap dirs path =
      let r := pushes heap dirs.list (splitpath path dirs.delim)
      (r.1, { dirs with list := r.2 }) := by
  induction heap, dirs, path using appendpath.induct with
  | case1 heap dirs =>
    rw [appendpath, dif_pos rfl, splitpath, dif_pos rfl]
    rfl
  | case2 heap dirs path hpath c r ih =>
    rw [appendpath, dif_neg hpath, splitpath, dif_neg hpath, pushes, List.foldl_append]
    refine ih.trans ?_
    by_cases hhead : (s8cut path dirs.delim).head ≠ []
    · simp only [r, c, dif_pos hhead, if_pos hhead]
      rfl
    · simp only [r, c, dif_neg hhead, if_neg hhead]
      rfl

/-- The nodes of the list, from its head, are the directories. -/
def Represents (m : Heap S8 × Search) (dirs : PkgConfig.Search) : Prop :=
  ∃ cells, Holds m.1 m.2.list cells ∧ cells.map Prod.snd = dirs.list ∧ m.2.delim = dirs.delim

theorem newsearch_represents (heap : Heap S8) (delim : UInt8) :
    Represents (heap, newsearch delim) (PkgConfig.newsearch delim) := ⟨[], holds_empty heap, rfl, rfl⟩

variable {m : Heap S8 × Search} {dirs : PkgConfig.Search}

theorem appendpath_represents (h : Represents m dirs) (path : S8) :
    Represents (appendpath m.1 m.2 path) (PkgConfig.appendpath dirs path) := by
  obtain ⟨cells, hcells, hlist, hdelim⟩ := h
  obtain ⟨new, hnew, hvalues, -, -⟩ := pushes_holds hcells (splitpath path m.2.delim)
  rw [appendpath_eq]
  refine ⟨cells ++ new, hnew, ?_, hdelim⟩
  rw [List.map_append, hvalues, hlist, hdelim]
  rfl

/-- One ends in a write through null where the other has no result. -/
theorem prependpath_represents (h : Represents m dirs) (path : S8) :
    Option.Rel Represents (prependpath m.1 m.2 path) (PkgConfig.prependpath dirs path) := by
  obtain ⟨cells, hcells, hlist, hdelim⟩ := h
  rw [prependpath, PkgConfig.prependpath]
  cases hhead : m.2.list.head with
  | none =>
    obtain rfl : cells = [] := hcells.head_eq_none.mp hhead
    have hdirs : dirs.list = [] := hlist.symm
    rw [if_pos hdirs]
    exact .some (appendpath_represents ⟨[], hcells, hlist, hdelim⟩ path)
  | some n =>
    have hne : cells ≠ [] := fun he => by
      rw [hcells.head_eq_none.mpr he] at hhead
      cases hhead
    have hdirs : dirs.list ≠ [] := by
      rw [← hlist]
      exact fun he => hne (List.map_eq_nil_iff.mp he)
    obtain ⟨new, hnew, hvalues, hge, hframe⟩ := pushes_holds (holds_empty m.1) (splitpath path m.2.delim)
    have htemp : (PkgConfig.appendpath (PkgConfig.newsearch dirs.delim) path).list = new.map Prod.snd := by
      rw [hvalues, hdelim]
      rfl
    simp only [if_neg hdirs, appendpath_eq, newsearch, htemp, List.map_eq_nil_iff]
    by_cases hnil : new = []
    · subst hnil
      rw [splice_empty hnew, if_pos rfl]
      exact .none
    · -- the nodes of the temporary list are new ones
      have hback := hcells.frame fun n hn => hframe n (hcells.seg.lt_length n hn) List.not_mem_nil
      obtain ⟨r, hr, hholds⟩ := splice_holds hnew hback hnil hne fun n hn hn' =>
        Nat.not_lt.mpr (hge n hn) (hcells.seg.lt_length n hn')
      rw [hr, if_neg hnil]
      exact .some ⟨new ++ cells, hholds, by rw [List.map_append, hlist], hdelim⟩

/-! ## Runs of calls -/

inductive Call where
  | appendpath (path : S8)
  | prependpath (path : S8)
  deriving DecidableEq

def Call.run (m : Heap S8 × Search) : Call → Option (Heap S8 × Search)
  | .appendpath path => some (Nodes.appendpath m.1 m.2 path)
  | .prependpath path => Nodes.prependpath m.1 m.2 path

/-- What the list should be after the call. -/
def Call.list (delim : UInt8) (list : List S8) : Call → List S8
  | .appendpath path => list ++ components path delim
  | .prependpath path => components path delim ++ list

/-- There is a component to put in front, or nothing to put it in front of. -/
def Call.Links (delim : UInt8) (list : List S8) : Call → Prop
  | .appendpath _ => True
  | .prependpath path => list = [] ∨ components path delim ≠ []

/-- The call does what it should. -/
def Call.Correct (m : Heap S8 × Search) (dirs : PkgConfig.Search) (call : Call) : Prop :=
  ∃ m', call.run m = some m' ∧ Represents m' { dirs with list := call.list dirs.delim dirs.list }

theorem call_correct_iff (h : Represents m dirs) (call : Call) :
    call.Correct m dirs ↔ call.Links dirs.delim dirs.list := by
  cases call with
  | appendpath path =>
    refine iff_of_true ⟨_, rfl, ?_⟩ trivial
    have hrep := appendpath_represents h path
    rw [PkgConfig.appendpath, splitpath_eq] at hrep
    exact hrep
  | prependpath path =>
    have hrep := prependpath_represents h path
    rw [prependpath_eq] at hrep
    by_cases hlinks : dirs.list = [] ∨ components path dirs.delim ≠ []
    · rw [if_pos hlinks] at hrep
      cases hrun : prependpath m.1 m.2 path with
      | none =>
        rw [hrun] at hrep
        cases hrep
      | some m' =>
        rw [hrun] at hrep
        cases hrep with
        | some hrep => exact iff_of_true ⟨m', hrun, hrep⟩ hlinks
    · rw [if_neg hlinks] at hrep
      refine iff_of_false ?_ hlinks
      rintro ⟨m', hrun, -⟩
      rw [show prependpath m.1 m.2 path = some m' from hrun] at hrep
      cases hrep

/-- After every call of a sequence the list is what it should be, if and only if each call
    has something to put in front, or nothing to put it in front of. -/
theorem calls_correct_iff (h : Represents m dirs) (calls : List Call) :
    (∀ done rest, calls = done ++ rest →
      ∃ m', done.foldlM Call.run m = some m' ∧
        Represents m' { dirs with list := done.foldl (Call.list dirs.delim) dirs.list }) ↔
    ∀ done call rest, calls = done ++ call :: rest →
      call.Links dirs.delim (done.foldl (Call.list dirs.delim) dirs.list) := by
  constructor
  · intro hruns done call rest hcalls
    obtain ⟨m₁, hrun₁, hrep₁⟩ := hruns done (call :: rest) hcalls
    obtain ⟨m₂, hrun₂, hrep₂⟩ := hruns (done ++ [call]) rest (by rw [hcalls, List.append_assoc, List.singleton_append])
    rw [List.foldlM_append, hrun₁] at hrun₂
    rw [List.foldl_append] at hrep₂
    have hcall : call.run m₁ = some m₂ := by simpa using hrun₂
    exact (call_correct_iff hrep₁ call).mp ⟨m₂, hcall, hrep₂⟩
  · intro hlinks done
    induction done using List.reverseRecOn with
    | nil => exact fun _ _ => ⟨m, rfl, h⟩
    | append_singleton done call ih =>
      intro rest hcalls
      rw [List.append_assoc, List.singleton_append] at hcalls
      obtain ⟨m₁, hrun₁, hrep₁⟩ := ih (call :: rest) hcalls
      obtain ⟨m₂, hcall, hrep₂⟩ := (call_correct_iff hrep₁ call).mpr (hlinks done call rest hcalls)
      refine ⟨m₂, ?_, ?_⟩
      · rw [List.foldlM_append, hrun₁]
        simpa using hcall
      · rw [List.foldl_append]
        exact hrep₂

/-- `b:c` in front of `a`, then `d`. -/
theorem calls_correct_abcd :
    ∃ m,
      [.appendpath [0x61], .prependpath [0x62, 0x3a, 0x63], .appendpath [0x64]].foldlM Call.run ([], newsearch 0x3a) =
        some m ∧
      Represents m ⟨[[0x62], [0x63], [0x61], [0x64]], 0x3a⟩ := by
  have hlinks := (calls_correct_iff (newsearch_represents [] 0x3a)
    [.appendpath [0x61], .prependpath [0x62, 0x3a, 0x63], .appendpath [0x64]]).mpr
  refine hlinks ?_ _ [] (List.append_nil _).symm
  intro done call rest hcalls
  match done, hcalls with
  | [], hcalls =>
    obtain rfl := (List.cons.inj hcalls).1
    trivial
  | [_], hcalls =>
    obtain rfl := (List.cons.inj (List.cons.inj hcalls).2).1
    exact .inr (by decide)
  | [_, _], hcalls =>
    obtain rfl := (List.cons.inj (List.cons.inj (List.cons.inj hcalls).2).2).1
    trivial
  | _ :: _ :: _ :: _, hcalls => simp at hcalls

/-- An empty path in front of a directory. -/
theorem prepend_nothing :
    ¬ ∀ calls : List Call, ∃ m, calls.foldlM Call.run ([], newsearch 0x3a) = some m := by
  intro hruns
  obtain ⟨m, hm⟩ := hruns [.appendpath [0x61], .prependpath []]
  have hrep := appendpath_represents (newsearch_represents [] 0x3a) [0x61]
  have hone : PkgConfig.appendpath (PkgConfig.newsearch 0x3a) [0x61] = ⟨[[0x61]], 0x3a⟩ := by
    rw [PkgConfig.appendpath, splitpath_eq]
    rfl
  have hnone : PkgConfig.prependpath ⟨[[0x61]], 0x3a⟩ [] = none := by
    rw [prependpath_eq]
    exact if_neg (by decide)
  rw [hone] at hrep
  have hnull := prependpath_represents hrep []
  rw [hnone] at hnull
  have hrun : prependpath (appendpath [] (newsearch 0x3a) [0x61]).1 (appendpath [] (newsearch 0x3a) [0x61]).2 [] =
      some m := by simpa [Call.run] using hm
  rw [hrun] at hnull
  cases hnull

end Nodes

end GnuWindows.PkgConfig
