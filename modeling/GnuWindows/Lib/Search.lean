/-
  GnuWindows.Lib.Search — depth-first search with a list of the visits to come.

  A search visits the first node of its list (`Visit`). The first time, the node is added
  to what was seen, and its successors go in front of the list when the visit is above the
  limit of depth. Later, some of its successors may go there again.

  Proved:
  - `search_exact`: what is seen at the end is what chains of at most so many nodes lead
    to, exactly when no visit from which the search does not go on loses a node.
  - `search_order`: on an acyclic graph, a search without a limit sees the nodes in the
    order of the unfolded graph.
-/
import GnuWindows.Lib.Trace
import Mathlib.Data.Fintype.Card
import Mathlib.Data.List.Chain
import Mathlib.Data.List.Nodup
import Mathlib.Data.Set.Finite.List
import Mathlib.Logic.Relation

namespace GnuWindows.Lib.Search

variable {ν : Type} (next : ν → List ν) (limit : Nat)

/-! ## Searches -/

structure State (ν : Type) where
  seen : List ν
  /-- The visits to come, each with the length of a chain to its node. -/
  agenda : List (Nat × ν)

/-- The visits of some nodes. -/
def visits (depth : Nat) (nodes : List ν) : List (Nat × ν) := nodes.map (depth, ·)

inductive Visit : State ν → State ν → Prop
  | first {seen : List ν} {depth : Nat} {n : ν} {rest : List (Nat × ν)} : n ∉ seen →
      Visit ⟨seen, (depth, n) :: rest⟩
        ⟨seen ++ [n], (if depth < limit then visits (depth + 1) (next n) else []) ++ rest⟩
  | again {seen : List ν} {depth : Nat} {n : ν} {rest : List (Nat × ν)} (nodes : List ν) : n ∈ seen →
      (∀ m ∈ nodes, m ∈ next n ∧ depth < limit) →
      Visit ⟨seen, (depth, n) :: rest⟩ ⟨seen, visits (depth + 1) nodes ++ rest⟩

/-- One turn: a visit, or nothing. -/
def Turn (x y : State ν) : Prop := x = y ∨ Visit next limit x y

/-- The states of a search from `roots`, up to now. -/
structure Run (roots : List ν) (trace : List (State ν)) : Prop where
  turns : trace.IsChain (Turn next limit)
  start : trace.head? = some ⟨[], visits 1 roots⟩

variable {next limit}

@[simp] theorem mem_visits {depth d : Nat} {nodes : List ν} {n : ν} :
    (d, n) ∈ visits depth nodes ↔ d = depth ∧ n ∈ nodes := by
  rw [visits, List.mem_map]
  constructor
  · intro h
    obtain ⟨m, hm, he⟩ := h
    cases he
    exact ⟨rfl, hm⟩
  · intro h
    exact ⟨n, h.2, by rw [h.1]⟩

@[simp] theorem map_visits (depth : Nat) (nodes : List ν) : (visits depth nodes).map Prod.snd = nodes := by
  simp [visits]

/-- What a turn keeps holds in every state. -/
theorem Run.inv {roots : List ν} {trace : List (State ν)} {I : State ν → Prop} (hrun : Run next limit roots trace)
    (hturn : ∀ x y, Visit next limit x y → I x → I y) (hstart : I ⟨[], visits 1 roots⟩) : ∀ x ∈ trace, I x := by
  refine Trace.inv hrun.turns hrun.start hstart ?_
  intro x _ y _ h hx
  rcases h with rfl | h
  · exact hx
  · exact hturn x y h hx

theorem Run.distinct {roots : List ν} {trace : List (State ν)} (hrun : Run next limit roots trace) :
    ∀ x ∈ trace, x.seen.Nodup := by
  refine hrun.inv ?_ List.nodup_nil
  intro x y h hx
  cases h with
  | first hn =>
    refine List.nodup_append.mpr ⟨hx, List.nodup_singleton _, ?_⟩
    intro a ha b hb e
    rw [List.mem_singleton.mp hb] at e
    exact hn (e ▸ ha)
  | again nodes => exact hx

/-! ## Chains -/

/-- A chain of at most `k` nodes leads from one node to another. -/
inductive Within (next : ν → List ν) : Nat → ν → ν → Prop
  | here (k : Nat) (n : ν) : Within next (k + 1) n n
  | step {k : Nat} {n m l : ν} : m ∈ next n → Within next k m l → Within next (k + 1) n l

theorem Within.mono {k k' : Nat} {n m : ν} (h : Within next k n m) (hk : k ≤ k') : Within next k' n m := by
  induction h generalizing k' with
  | here k n =>
    obtain ⟨j, rfl⟩ := Nat.exists_eq_add_of_le hk
    rw [Nat.add_right_comm]
    exact .here _ n
  | @step k n m l hm _ ih =>
    obtain ⟨j, rfl⟩ := Nat.exists_eq_add_of_le hk
    rw [Nat.add_right_comm]
    exact .step hm (ih (Nat.le_add_right k j))

/-- The nodes of a chain. -/
theorem within_of_chain {r : ν} {chain : List ν} (hc : (r :: chain).IsChain fun a b => b ∈ next a) {n : ν}
    (hn : n ∈ r :: chain) : Within next (chain.length + 1) r n := by
  induction chain generalizing r with
  | nil =>
    obtain rfl := List.mem_singleton.mp hn
    exact .here 0 n
  | cons m chain ih =>
    obtain ⟨hm, hc⟩ := List.isChain_cons_cons.mp hc
    rcases List.mem_cons.mp hn with rfl | hn
    · exact .here _ n
    · exact .step hm (ih hc hn)

theorem Within.chain {k : Nat} {r n : ν} (h : Within next k r n) :
    ∃ chain, (r :: chain).length ≤ k ∧ (r :: chain).IsChain (fun a b => b ∈ next a) ∧ n ∈ r :: chain := by
  induction h with
  | here k n => exact ⟨[], by simp, List.isChain_singleton n, List.mem_singleton_self n⟩
  | @step k n m l hm _ ih =>
    obtain ⟨chain, hlen, hc, hl⟩ := ih
    refine ⟨m :: chain, Nat.succ_le_succ hlen, ?_, List.mem_cons_of_mem n hl⟩
    exact List.isChain_cons_cons.mpr ⟨hm, hc⟩

/-- The node lies on a chain of at most `k` nodes from one of the roots. -/
def Onchain (next : ν → List ν) (roots : List ν) (k : Nat) (n : ν) : Prop :=
  ∃ chain : List ν, chain.length ≤ k ∧ chain.IsChain (fun a b => b ∈ next a) ∧ (∃ r ∈ roots, chain.head? = some r) ∧
    n ∈ chain

theorem onchain_iff {roots : List ν} {k : Nat} {n : ν} :
    Onchain next roots k n ↔ ∃ r ∈ roots, Within next k r n := by
  constructor
  · intro h
    obtain ⟨chain, hlen, hc, ⟨r, hr, hhead⟩, hn⟩ := h
    cases chain with
    | nil => cases hn
    | cons r' chain =>
      cases hhead
      exact ⟨r, hr, (within_of_chain hc hn).mono hlen⟩
  · intro h
    obtain ⟨r, hr, hw⟩ := h
    obtain ⟨chain, hlen, hc, hn⟩ := hw.chain
    exact ⟨r :: chain, hlen, hc, ⟨r, hr, rfl⟩, hn⟩

/-- A set with the roots that the edges do not leave has all nodes on chains. -/
theorem onchain_mem {roots nodes : List ν} (hnext : ∀ n m, m ∈ next n → m ∈ nodes) (hroots : ∀ r ∈ roots, r ∈ nodes)
    {k : Nat} {n : ν} (h : Onchain next roots k n) : n ∈ nodes := by
  obtain ⟨r, hr, hw⟩ := onchain_iff.mp h
  have hn := hroots r hr
  clear h hr
  induction hw with
  | here => exact hn
  | step hm _ ih => exact ih (hnext _ _ hm)

/-! ## With a limit -/

/-- Some visit to come is near enough to the node. -/
def Owes (next : ν → List ν) (radius : Nat) (agenda : List (Nat × ν)) (n : ν) : Prop :=
  ∃ depth m, (depth, m) ∈ agenda ∧ Within next (radius + 1 - depth) m n

/-- A visit of a node that was seen, or from which the limit stops the search, loses
    nothing: what is near enough to the node is seen, or near enough to a visit to come. -/
def Harmless (next : ν → List ν) (limit radius : Nat) (x y : State ν) : Prop :=
  ∀ depth n rest, x.agenda = (depth, n) :: rest → n ∈ x.seen ∨ limit ≤ depth →
    ∀ m, Within next (radius + 1 - depth) n m → m ∈ y.seen ∨ Owes next radius y.agenda m

section Radius

variable {radius : Nat}

theorem Owes.append_right {agenda : List (Nat × ν)} {n : ν} (h : Owes next radius agenda n) (new : List (Nat × ν)) :
    Owes next radius (new ++ agenda) n := by
  obtain ⟨depth, m, hm, hw⟩ := h
  exact ⟨depth, m, List.mem_append_right new hm, hw⟩

theorem owes_visits {depth : Nat} {nodes : List ν} {n : ν} (rest : List (Nat × ν))
    (h : ∃ m ∈ nodes, Within next (radius + 1 - depth) m n) : Owes next radius (visits depth nodes ++ rest) n := by
  obtain ⟨m, hm, hw⟩ := h
  exact ⟨depth, m, List.mem_append_left rest (mem_visits.mpr ⟨rfl, hm⟩), hw⟩

theorem owes_cases {depth : Nat} {n m : ν} {rest : List (Nat × ν)} (h : Owes next radius ((depth, n) :: rest) m) :
    Within next (radius + 1 - depth) n m ∨ Owes next radius rest m := by
  obtain ⟨d, l, hl, hw⟩ := h
  rcases List.mem_cons.mp hl with he | hl
  · cases he
    exact Or.inl hw
  · exact Or.inr ⟨d, l, hl, hw⟩

/-- A visit to come has a depth within the radius, and what is near enough to it is on a
    short chain. -/
structure Near (next : ν → List ν) (radius : Nat) (roots : List ν) (x : State ν) : Prop where
  depth : ∀ depth n, (depth, n) ∈ x.agenda → 1 ≤ depth ∧ depth ≤ radius
  agenda : ∀ depth n, (depth, n) ∈ x.agenda → ∀ m, Within next (radius + 1 - depth) n m →
    Onchain next roots radius m
  seen : ∀ n ∈ x.seen, Onchain next roots radius n

/-- A node is within its own reach. -/
theorem within_self {depth : Nat} (h : depth ≤ radius) (n : ν) : Within next (radius + 1 - depth) n n := by
  rw [Nat.sub_add_comm h]
  exact .here _ n

/-- From a successor one node less is within reach. -/
theorem within_succ {depth : Nat} (h : depth ≤ radius) {n m l : ν} (hm : m ∈ next n)
    (hw : Within next (radius + 1 - (depth + 1)) m l) : Within next (radius + 1 - depth) n l := by
  rw [Nat.sub_add_comm h]
  rw [Nat.add_sub_add_right] at hw
  exact .step hm hw

theorem Near.push (hlimit : limit ≤ radius) {roots : List ν} {seen : List ν} {depth : Nat} {n : ν}
    {rest : List (Nat × ν)} (h : Near next radius roots ⟨seen, (depth, n) :: rest⟩) {nodes : List ν}
    (hnodes : ∀ m ∈ nodes, m ∈ next n ∧ depth < limit)
    {seen' : List ν} (hseen : ∀ m ∈ seen', Onchain next roots radius m) :
    Near next radius roots ⟨seen', visits (depth + 1) nodes ++ rest⟩ := by
  have hhead := h.depth depth n List.mem_cons_self
  refine ⟨?_, ?_, hseen⟩
  · intro d m hm
    rcases List.mem_append.mp hm with hm | hm
    · obtain ⟨rfl, hmem⟩ := mem_visits.mp hm
      have := (hnodes m hmem).2
      omega
    · exact h.depth d m (List.mem_cons_of_mem _ hm)
  · intro d m hm l hw
    rcases List.mem_append.mp hm with hm | hm
    · obtain ⟨rfl, hmem⟩ := mem_visits.mp hm
      exact h.agenda depth n List.mem_cons_self l (within_succ hhead.2 (hnodes m hmem).1 hw)
    · exact h.agenda d m (List.mem_cons_of_mem _ hm) l hw

theorem Near.visit (hlimit : limit ≤ radius) {roots : List ν} {x y : State ν} (hv : Visit next limit x y)
    (h : Near next radius roots x) : Near next radius roots y := by
  cases hv with
  | @first seen depth n rest hn =>
    have hself := h.agenda depth n List.mem_cons_self n
      (within_self (h.depth depth n List.mem_cons_self).2 n)
    have hseen : ∀ m ∈ seen ++ [n], Onchain next roots radius m := by
      intro m hm
      rcases List.mem_append.mp hm with hm | hm
      · exact h.seen m hm
      · exact List.mem_singleton.mp hm ▸ hself
    split
    · rename_i hlt
      exact h.push hlimit (fun m hm => ⟨hm, hlt⟩) hseen
    · exact h.push hlimit (List.forall_mem_nil _) hseen
  | again nodes hn hnodes => exact h.push hlimit hnodes h.seen

theorem Run.near (hlimit : limit ≤ radius) (hone : 1 ≤ radius) {roots : List ν} {trace : List (State ν)}
    (hrun : Run next limit roots trace) : ∀ x ∈ trace, Near next radius roots x := by
  refine hrun.inv (fun x y hv h => h.visit hlimit hv) ⟨?_, ?_, by simp⟩
  · intro depth n hn
    obtain ⟨rfl, _⟩ := mem_visits.mp hn
    exact ⟨Nat.le_refl 1, hone⟩
  · intro depth n hn m hw
    obtain ⟨rfl, hroot⟩ := mem_visits.mp hn
    exact onchain_iff.mpr ⟨n, hroot, hw⟩

/-- Whatever a search still comes to see is near enough to a visit to come. -/
theorem Run.owes_back (hlimit : limit ≤ radius) (hone : 1 ≤ radius) {roots : List ν} {trace : List (State ν)}
    (hrun : Run next limit roots trace) {e : State ν} (hend : trace.getLast? = some e) {n : ν} (hn : n ∈ e.seen) :
    ∀ x ∈ trace, n ∈ x.seen ∨ Owes next radius x.agenda n := by
  apply Trace.back (I := fun x => n ∈ x.seen ∨ Owes next radius x.agenda n) hrun.turns hend (Or.inl hn)
  intro x hx y _ h hy
  have hnear := hrun.near hlimit hone x hx
  rcases h with rfl | hv
  · exact hy
  cases hv with
  | @first seen depth m rest hm =>
    have hdepth := (hnear.depth depth m List.mem_cons_self).2
    rcases hy with hy | ⟨d, l, hl, hw⟩
    · rcases List.mem_append.mp hy with hy | hy
      · exact Or.inl hy
      · obtain rfl := List.mem_singleton.mp hy
        exact Or.inr ⟨depth, n, List.mem_cons_self, within_self hdepth n⟩
    · rcases List.mem_append.mp hl with hl | hl
      · split at hl
        · obtain ⟨rfl, hnext⟩ := mem_visits.mp hl
          exact Or.inr ⟨depth, m, List.mem_cons_self, within_succ hdepth hnext hw⟩
        · cases hl
      · exact Or.inr ⟨d, l, List.mem_cons_of_mem _ hl, hw⟩
  | @again seen depth m rest nodes hm hnodes =>
    have hdepth := (hnear.depth depth m List.mem_cons_self).2
    rcases hy with hy | ⟨d, l, hl, hw⟩
    · exact Or.inl hy
    · rcases List.mem_append.mp hl with hl | hl
      · obtain ⟨rfl, hnext⟩ := mem_visits.mp hl
        exact Or.inr ⟨depth, m, List.mem_cons_self, within_succ hdepth (hnodes l hnext).1 hw⟩
      · exact Or.inr ⟨d, l, List.mem_cons_of_mem _ hl, hw⟩

/-- A turn that loses nothing keeps what is near enough to what is to come. -/
theorem owes_turn {roots : List ν} {x y : State ν} (hnear : Near next radius roots x) (ht : Turn next limit x y)
    (hharmless : Harmless next limit radius x y) {n : ν} (h : n ∈ x.seen ∨ Owes next radius x.agenda n) :
    n ∈ y.seen ∨ Owes next radius y.agenda n := by
  rcases ht with rfl | hv
  · exact h
  cases hv with
  | @first seen depth m rest hm =>
    have hdepth := (hnear.depth depth m List.mem_cons_self).2
    rcases h with h | h
    · exact Or.inl (List.mem_append_left _ h)
    rcases owes_cases h with hw | h
    · by_cases hlt : depth < limit
      · rw [Nat.sub_add_comm hdepth] at hw
        cases hw with
        | here => exact Or.inl (List.mem_append_right _ (List.mem_singleton_self n))
        | @step k _ l _ hl hw =>
          -- a chain goes on past this node, and its successors are to be visited
          rw [if_pos hlt]
          exact Or.inr (owes_visits rest ⟨l, hl, by rw [Nat.add_sub_add_right]; exact hw⟩)
      · exact hharmless depth m rest rfl (Or.inr (Nat.le_of_not_lt hlt)) n hw
    · exact Or.inr (h.append_right _)
  | @again seen depth m rest nodes hm hnodes =>
    rcases h with h | h
    · exact Or.inl h
    rcases owes_cases h with hw | h
    · exact hharmless depth m rest rfl (Or.inl hm) n hw
    · exact Or.inr (h.append_right _)

/-- A search that has nothing left to visit has seen what short chains lead to, exactly
    when it lost nothing in any turn. -/
theorem search_exact (hlimit : limit ≤ radius) (hone : 1 ≤ radius) {roots : List ν} {trace : List (State ν)}
    (hrun : Run next limit roots trace) {e : State ν} (hend : trace.getLast? = some e) (hdone : e.agenda = []) :
    (∀ n, n ∈ e.seen ↔ Onchain next roots radius n) ↔ trace.IsChain (Harmless next limit radius) := by
  have hmem : e ∈ trace := List.mem_of_getLast? hend
  constructor
  · intro hexact
    refine hrun.turns.imp_of_mem_imp fun x y hx hy _ => ?_
    intro depth n rest hagenda _ m hw
    have hm : Onchain next roots radius m :=
      (hrun.near hlimit hone x hx).agenda depth n (by rw [hagenda]; exact List.mem_cons_self) m hw
    exact hrun.owes_back hlimit hone hend ((hexact m).mpr hm) y hy
  · intro hharmless n
    refine ⟨(hrun.near hlimit hone e hmem).seen n, fun hn => ?_⟩
    obtain ⟨r, hr, hw⟩ := onchain_iff.mp hn
    have hinv : ∀ x ∈ trace, n ∈ x.seen ∨ Owes next radius x.agenda n := by
      refine Trace.inv (Trace.isChain_and hrun.turns hharmless) hrun.start ?_ ?_
      · exact Or.inr ⟨1, r, mem_visits.mpr ⟨rfl, hr⟩, hw⟩
      · intro x hx y _ h
        exact owes_turn (hrun.near hlimit hone x hx) h.1 h.2
    rcases hinv e hmem with h | ⟨_, _, h, _⟩
    · exact h
    · rw [hdone] at h; cases h

end Radius

/-! ## Without a limit -/

def Edge (next : ν → List ν) (n m : ν) : Prop := m ∈ next n

def Acyclic (next : ν → List ν) : Prop := ∀ n, ¬ Relation.TransGen (Edge next) n n

/-- A graph is acyclic when the nodes can be ranked along its edges. -/
theorem acyclic_of_rank (rank : ν → Nat) (h : ∀ n m, m ∈ next n → rank m < rank n) : Acyclic next := by
  have hrank : ∀ n m, Relation.TransGen (Edge next) n m → rank m < rank n := by
    intro n m hnm
    induction hnm with
    | single hm => exact h _ _ hm
    | tail _ hm ih => exact Nat.lt_trans (h _ _ hm) ih
  exact fun n hn => Nat.lt_irrefl _ (hrank n n hn)

/-- The unfolded graph below some nodes: the last nodes of all chains from them, the
    chains in the order of a dictionary. -/
inductive Unfolds (next : ν → List ν) : List ν → List ν → Prop
  | nil : Unfolds next [] []
  | cons {n : ν} {rest below after : List ν} : Unfolds next (next n) below → Unfolds next rest after →
      Unfolds next (n :: rest) (n :: below ++ after)

theorem Unfolds.append {l l' u u' : List ν} (h : Unfolds next l u) (h' : Unfolds next l' u') :
    Unfolds next (l ++ l') (u ++ u') := by
  induction h with
  | nil => exact h'
  | @cons n rest below after hb _ _ ih =>
    rw [List.append_assoc]
    exact .cons hb ih

theorem Unfolds.of_mem {l u : List ν} (h : Unfolds next l u) {n : ν} (hn : n ∈ l) :
    ∃ below, Unfolds next (next n) below := by
  induction h with
  | nil => cases hn
  | @cons m rest below after hb _ _ ih =>
    rcases List.mem_cons.mp hn with rfl | hn
    · exact ⟨below, hb⟩
    · exact ih hn

/-- Some of the nodes can be unfolded when all of them can. -/
theorem Unfolds.subset {l u : List ν} (h : Unfolds next l u) {l' : List ν} (hl : ∀ n ∈ l', n ∈ l) :
    ∃ u', Unfolds next l' u' := by
  induction l' with
  | nil => exact ⟨[], .nil⟩
  | cons n l' ih =>
    obtain ⟨u', hu'⟩ := ih fun m hm => hl m (List.mem_cons_of_mem n hm)
    obtain ⟨below, hb⟩ := h.of_mem (hl n List.mem_cons_self)
    exact ⟨_, .cons hb hu'⟩

theorem Unfolds.reach {l u : List ν} (h : Unfolds next l u) {m : ν} (hm : m ∈ u) :
    ∃ n ∈ l, Relation.ReflTransGen (Edge next) n m := by
  induction h with
  | nil => cases hm
  | @cons n rest below after _ _ ihb iha =>
    rcases List.mem_cons.mp hm with rfl | hm
    · exact ⟨m, List.mem_cons_self, .refl⟩
    rcases List.mem_append.mp hm with hm | hm
    · obtain ⟨c, hc, hr⟩ := ihb hm
      exact ⟨n, List.mem_cons_self, .head hc hr⟩
    · obtain ⟨c, hc, hr⟩ := iha hm
      exact ⟨c, List.mem_cons_of_mem n hc, hr⟩

/-- An acyclic graph in which finitely many nodes have successors can be unfolded. -/
theorem unfolds_exists (hacyclic : Acyclic next) {nodes : List ν} (hnodes : ∀ n, next n ≠ [] → n ∈ nodes) (l : List ν) :
    ∃ u, Unfolds next l u := by
  classical
  let below (a b : { n // n ∈ nodes }) : Prop := Relation.TransGen (Edge next) b.1 a.1
  have hfinite : Finite { n // n ∈ nodes } := (List.finite_toSet nodes).to_subtype
  have htrans : IsTrans _ below := ⟨fun a b c hab hbc => hbc.trans hab⟩
  have hirrefl : Std.Irrefl below := ⟨fun a => hacyclic a.1⟩
  have hwf : WellFounded below := Finite.wellFounded_of_trans_of_irrefl below
  have hlist : ∀ l : List ν, (∀ n ∈ l, ∃ u, Unfolds next (next n) u) → ∃ u, Unfolds next l u := by
    intro l
    induction l with
    | nil => intro _; exact ⟨[], .nil⟩
    | cons n l ih =>
      intro h
      obtain ⟨u, hu⟩ := h n List.mem_cons_self
      obtain ⟨u', hu'⟩ := ih fun m hm => h m (List.mem_cons_of_mem n hm)
      exact ⟨_, .cons hu hu'⟩
  have hnode : ∀ a : { n // n ∈ nodes }, ∃ u, Unfolds next (next a.1) u := by
    intro a
    induction a using hwf.induction with
    | _ a ih =>
      refine hlist _ fun m hm => ?_
      by_cases hm' : next m = []
      · exact ⟨[], by rw [hm']; exact .nil⟩
      · exact ih ⟨m, hnodes m hm'⟩ (.single hm)
  refine hlist l fun n _ => ?_
  by_cases hn : next n = []
  · exact ⟨[], by rw [hn]; exact .nil⟩
  · exact hnode ⟨n, hnodes n hn⟩

/-- The visit of a successor comes before anything else than what follows from the node. -/
def Pending (next : ν → List ν) (n m : ν) (agenda : List (Nat × ν)) : Prop :=
  ∃ before depth after, agenda = before ++ (depth, m) :: after ∧
    ∀ v ∈ before, Relation.TransGen (Edge next) n v.2

/-- When something is visited first, it is the successor itself or follows from the node. -/
theorem pending_cases {n m l : ν} {depth : Nat} {rest : List (Nat × ν)}
    (h : Pending next n m ((depth, l) :: rest)) :
    m = l ∨ (Relation.TransGen (Edge next) n l ∧ Pending next n m rest) := by
  obtain ⟨before, d, after, he, hb⟩ := h
  cases before with
  | nil =>
    cases he
    exact Or.inl rfl
  | cons v before =>
    cases he
    exact Or.inr ⟨hb _ List.mem_cons_self, before, d, after, rfl, fun w hw => hb w (List.mem_cons_of_mem _ hw)⟩

/-- The successors of what follows from a node go in front. -/
theorem Pending.push {n m l : ν} {rest : List (Nat × ν)} (h : Pending next n m rest)
    (hl : Relation.TransGen (Edge next) n l) {nodes : List ν} (hnodes : ∀ c ∈ nodes, c ∈ next l) (depth : Nat) :
    Pending next n m (visits depth nodes ++ rest) := by
  obtain ⟨before, d, after, rfl, hb⟩ := h
  refine ⟨visits depth nodes ++ before, d, after, by rw [List.append_assoc], ?_⟩
  intro v hv
  rcases List.mem_append.mp hv with hv | hv
  · obtain ⟨d', c⟩ := v
    exact hl.tail (hnodes c (mem_visits.mp hv).2)
  · exact hb v hv

theorem pending_visits {n m : ν} (hm : m ∈ next n) (depth : Nat) (rest : List (Nat × ν)) :
    Pending next n m (visits depth (next n) ++ rest) := by
  obtain ⟨l, l', he⟩ := List.append_of_mem hm
  refine ⟨visits depth l, depth, visits depth l' ++ rest, by rw [he]; simp [visits], ?_⟩
  intro v hv
  obtain ⟨d, c⟩ := v
  refine .single ?_
  rw [Edge, he]
  exact List.mem_append_left _ (mem_visits.mp hv).2

/-- Each successor of what was seen was seen too, or its visit is pending. -/
def Closed (next : ν → List ν) (x : State ν) : Prop :=
  ∀ n ∈ x.seen, ∀ m ∈ next n, m ∈ x.seen ∨ Pending next n m x.agenda

theorem Closed.visit {x y : State ν} (hdeep : ∀ v ∈ x.agenda, v.1 < limit) (hv : Visit next limit x y)
    (h : Closed next x) : Closed next y := by
  cases hv with
  | @first seen depth l rest hl =>
    rw [if_pos (hdeep (depth, l) List.mem_cons_self)]
    intro n hn m hm
    rcases List.mem_append.mp hn with hn | hn
    · rcases h n hn m hm with hseen | hp
      · exact Or.inl (List.mem_append_left _ hseen)
      · rcases pending_cases hp with rfl | ⟨hnl, hp⟩
        · exact Or.inl (List.mem_append_right _ (List.mem_singleton_self m))
        · exact Or.inr (hp.push hnl (fun c hc => hc) _)
    · obtain rfl := List.mem_singleton.mp hn
      exact Or.inr (pending_visits hm _ _)
  | @again seen depth l rest nodes hl hnodes =>
    intro n hn m hm
    rcases h n hn m hm with hseen | hp
    · exact Or.inl hseen
    · rcases pending_cases hp with rfl | ⟨hnl, hp⟩
      · exact Or.inl hl
      · exact Or.inr (hp.push hnl (fun c hc => (hnodes c hc).1) _)

theorem Run.closed {roots : List ν} {trace : List (State ν)} (hrun : Run next limit roots trace)
    (hdeep : ∀ x ∈ trace, ∀ v ∈ x.agenda, v.1 < limit) : ∀ x ∈ trace, Closed next x := by
  refine Trace.inv hrun.turns hrun.start (by simp [Closed]) ?_
  intro x hx y _ h hclosed
  rcases h with rfl | hv
  · exact hclosed
  · exact hclosed.visit (hdeep x hx) hv

/-- A search without a limit has seen all that follows from what it saw. -/
theorem Run.seen_closed {roots : List ν} {trace : List (State ν)} (hrun : Run next limit roots trace)
    (hdeep : ∀ x ∈ trace, ∀ v ∈ x.agenda, v.1 < limit) {e : State ν} (hend : trace.getLast? = some e)
    (hdone : e.agenda = []) {n m : ν} (hn : n ∈ e.seen) (hm : m ∈ next n) : m ∈ e.seen := by
  rcases hrun.closed hdeep e (List.mem_of_getLast? hend) n hn m hm with hseen | ⟨before, depth, after, he, _⟩
  · exact hseen
  · rw [hdone] at he
    exact absurd he (by simp)

/-- What is to be visited is visited. -/
theorem Run.roots_seen {roots : List ν} {trace : List (State ν)} (hrun : Run next limit roots trace) {e : State ν}
    (hend : trace.getLast? = some e) (hdone : e.agenda = []) {r : ν} (hr : r ∈ roots) : r ∈ e.seen := by
  have hinv : ∀ x ∈ trace, r ∈ x.seen ∨ ∃ depth, (depth, r) ∈ x.agenda := by
    refine hrun.inv ?_ (Or.inr ⟨1, mem_visits.mpr ⟨rfl, hr⟩⟩)
    intro x y hv hx
    cases hv with
    | first hn =>
      rcases hx with hx | ⟨depth, hx⟩
      · exact Or.inl (List.mem_append_left _ hx)
      · rcases List.mem_cons.mp hx with he | hx
        · cases he
          exact Or.inl (List.mem_append_right _ (List.mem_singleton_self r))
        · exact Or.inr ⟨depth, List.mem_append_right _ hx⟩
    | again nodes hn _ =>
      rcases hx with hx | ⟨depth, hx⟩
      · exact Or.inl hx
      · rcases List.mem_cons.mp hx with he | hx
        · cases he
          exact Or.inl hn
        · exact Or.inr ⟨depth, List.mem_append_right _ hx⟩
  rcases hinv e (List.mem_of_getLast? hend) with h | ⟨_, h⟩
  · exact h
  · rw [hdone] at h
    cases h

/-- When a node is visited again, all that follows from it was seen: else the node would
    follow from itself. -/
theorem Closed.follows {seen : List ν} {depth : Nat} {n : ν} {rest : List (Nat × ν)} (hacyclic : Acyclic next)
    (h : Closed next ⟨seen, (depth, n) :: rest⟩) (hn : n ∈ seen) {m : ν}
    (hm : Relation.ReflTransGen (Edge next) n m) : m ∈ seen := by
  induction hm with
  | refl => exact hn
  | @tail b m hb hm ih =>
    rcases h b ih m hm with hseen | hp
    · exact hseen
    · have hback : Relation.TransGen (Edge next) b n := by
        rcases pending_cases hp with rfl | ⟨hbn, _⟩
        · exact .single hm
        · exact hbn
      exact absurd (hback.trans_left hb) (hacyclic b)

variable [BEq ν] [LawfulBEq ν]

/-- What came before can be left out. -/
theorem eraseDups_skip {l l' : List ν} (h : ∀ n ∈ l', n ∈ l) (rest : List ν) :
    (l ++ (l' ++ rest)).eraseDups = (l ++ rest).eraseDups := by
  rw [← List.append_assoc, List.eraseDups_append, List.eraseDups_append, List.eraseDups_append]
  have hnone : l'.removeAll l = [] := by
    rw [List.removeAll, List.filter_eq_nil_iff]
    intro n hn
    simp [h n hn]
  have hsame : rest.removeAll (l ++ l') = rest.removeAll l := by
    rw [List.removeAll, List.removeAll]
    refine List.filter_congr fun n _ => ?_
    by_cases hn : n ∈ l'
    · simp [hn, h n hn]
    · simp [hn]
  rw [hnone, hsame]
  simp

theorem eraseDups_of_nodup {l : List ν} (h : l.Nodup) : l.eraseDups = l := by
  induction l with
  | nil => rfl
  | cons n l ih =>
    obtain ⟨hn, hl⟩ := List.nodup_cons.mp h
    have hkeep : l.filter (fun m => !m == n) = l := by
      rw [List.filter_eq_self]
      intro m hm
      have hne : m ≠ n := fun e => hn (e ▸ hm)
      simpa using hne
    rw [List.eraseDups_cons, hkeep, ih hl]

/-- What was seen and what the visits to come unfold to is, in order, the unfolded graph. -/
def Ordered (next : ν → List ν) (unfolded : List ν) (x : State ν) : Prop :=
  ∃ u, Unfolds next (x.agenda.map Prod.snd) u ∧ (x.seen ++ u).eraseDups = unfolded.eraseDups

theorem Ordered.visit {unfolded : List ν} {x y : State ν} (hacyclic : Acyclic next) (hclosed : Closed next x)
    (hdeep : ∀ v ∈ x.agenda, v.1 < limit) (hv : Visit next limit x y) (h : Ordered next unfolded x) :
    Ordered next unfolded y := by
  obtain ⟨u, hu, hord⟩ := h
  cases hv with
  | @first seen depth n rest hn =>
    rw [if_pos (hdeep (depth, n) List.mem_cons_self)]
    cases hu with
    | @cons _ _ below after hb ha =>
      refine ⟨below ++ after, ?_, ?_⟩
      · rw [List.map_append, map_visits]
        exact hb.append ha
      · rw [← hord]
        simp
  | @again seen depth n rest nodes hn hnodes =>
    cases hu with
    | @cons _ _ below after hb ha =>
      have hsub : ∀ m ∈ nodes, m ∈ next n := fun m hm => (hnodes m hm).1
      obtain ⟨u', hu'⟩ := hb.subset hsub
      have hfollows : ∀ m ∈ u', m ∈ seen := by
        intro m hm
        obtain ⟨c, hc, hr⟩ := hu'.reach hm
        exact hclosed.follows hacyclic hn (.head (hsub c hc) hr)
      have hbelow : ∀ m ∈ n :: below, m ∈ seen := by
        intro m hm
        rcases List.mem_cons.mp hm with rfl | hm
        · exact hn
        · obtain ⟨c, hc, hr⟩ := hb.reach hm
          exact hclosed.follows hacyclic hn (.head hc hr)
      refine ⟨u' ++ after, ?_, ?_⟩
      · rw [List.map_append, map_visits]
        exact hu'.append ha
      · rw [← hord, eraseDups_skip hfollows, eraseDups_skip hbelow]

/-- On an acyclic graph a search without a limit sees the nodes in the order they first
    have in the unfolded graph. -/
theorem search_order {roots unfolded : List ν} {trace : List (State ν)} (hrun : Run next limit roots trace)
    (hdeep : ∀ x ∈ trace, ∀ v ∈ x.agenda, v.1 < limit) (hacyclic : Acyclic next)
    (hunfolded : Unfolds next roots unfolded) {e : State ν} (hend : trace.getLast? = some e) (hdone : e.agenda = []) :
    e.seen = unfolded.eraseDups := by
  have hmem : e ∈ trace := List.mem_of_getLast? hend
  have hinv : ∀ x ∈ trace, Ordered next unfolded x := by
    refine Trace.inv hrun.turns hrun.start ?_ ?_
    · exact ⟨unfolded, by rw [map_visits]; exact hunfolded, rfl⟩
    · intro x hx y _ h hord
      rcases h with rfl | hv
      · exact hord
      · exact hord.visit hacyclic (hrun.closed hdeep x hx) (hdeep x hx) hv
  obtain ⟨u, hu, hord⟩ := hinv e hmem
  rw [hdone] at hu
  cases hu
  rw [← hord, List.append_nil, eraseDups_of_nodup (hrun.distinct e hmem)]

end GnuWindows.Lib.Search
