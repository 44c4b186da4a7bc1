/-
  GnuWindows.PkgConfig.Dedup — which of the collected arguments `writeargs` prints.

  An argument is printed at the position the trie has for it, and at every position when
  the trie has none. `Placed` says what the trie holds after any arguments: the first
  position of an argument, or the last one for `-l`, and -1 for what is excluded.

  Proved:
  - `writeargs_written`: what is printed is the arguments at their positions, in order,
    with a delimiter before each but the first one of the run.
  - `appendarg_placed`: an argument more keeps the trie right, whatever hashes collide.
  - `written_eq`: so an argument is printed at its first position, or at its last.
  - `lastof_keptargs`: when the last definition of a macro stays the last one.
-/
import GnuWindows.PkgConfig.Args
import Mathlib.Data.List.Basic
import Mathlib.Data.List.Induction

namespace GnuWindows.PkgConfig

/-! ## Writing -/

/-- The arguments `writeargs` prints, in order. -/
def written (args : Args) : List S8 :=
  (args.list.zipIdx.filter fun (arg, position) => inposition args arg position).map Prod.fst

/-- How an argument is printed. -/
def rendered (w : Fieldwriter) (arg : S8) : S8 := if w.msvc then msvcize arg else arg

def delimiter (w : Fieldwriter) : UInt8 := if w.delim ≠ 0 then w.delim else 0x20

/-- Texts with a delimiter between them, and one in front when `argcount` were printed
    before. -/
def separated (delim : UInt8) (argcount : Nat) (texts : List S8) : S8 :=
  if argcount = 0 then [delim].intercalate texts else texts.flatMap (delim :: ·)

theorem separated_nil (delim : UInt8) (argcount : Nat) : separated delim argcount [] = [] := by
  unfold separated
  split <;> rfl

theorem intercalate_cons_flatMap (delim : UInt8) (text : S8) (texts : List S8) :
    [delim].intercalate (text :: texts) = text ++ texts.flatMap (delim :: ·) := by
  induction texts generalizing text with
  | nil => simp
  | cons text' texts ih => rw [List.intercalate_cons_cons, ih, List.flatMap_cons, List.append_assoc]; rfl

theorem separated_cons (delim : UInt8) (argcount : Nat) (text : S8) (texts : List S8) :
    separated delim argcount (text :: texts) =
      (if argcount ≠ 0 then [delim] else []) ++ text ++ separated delim (argcount + 1) texts := by
  unfold separated
  rw [if_neg (Nat.succ_ne_zero argcount)]
  by_cases h : argcount = 0
  · rw [if_pos h, if_neg (not_not_intro h), intercalate_cons_flatMap]; rfl
  · rw [if_neg h, if_pos h, List.flatMap_cons]; rfl

theorem writeloop_written (w : Fieldwriter) (delim : UInt8) (list : List S8) (position argcount : Nat) :
    writeloop w delim list position argcount =
      let printed := ((list.zipIdx position).filter fun (arg, k) => inposition w.args arg k).map Prod.fst
      (separated delim argcount (printed.map (rendered w)), argcount + printed.length) := by
  induction list generalizing position argcount with
  | nil => simp [writeloop, separated_nil]
  | cons arg list ih =>
    rw [writeloop, List.zipIdx_cons]
    split
    · rename_i h
      rw [ih, List.filter_cons_of_pos (by exact h)]
      simp only [List.map_cons, List.length_cons, separated_cons, rendered, Nat.add_assoc, Nat.add_comm 1]
    · rename_i h
      rw [ih, List.filter_cons_of_neg (by exact h)]

/-- What is printed, and how many arguments have been printed after it. -/
theorem writeargs_written (w : Fieldwriter) (argcount : Nat) :
    writeargs w argcount =
      (separated (delimiter w) argcount ((written w.args).map (rendered w)), argcount + (written w.args).length) :=
  writeloop_written w _ _ _ _

/-- The text of one writer after another. -/
theorem separated_append (delim : UInt8) (argcount : Nat) (texts texts' : List S8) :
    separated delim argcount (texts ++ texts') =
      separated delim argcount texts ++ separated delim (argcount + texts.length) texts' := by
  induction texts generalizing argcount with
  | nil => rw [separated_nil]; rfl
  | cons text texts ih =>
    rw [List.cons_append, separated_cons, separated_cons, ih, List.length_cons, Nat.add_assoc, Nat.add_comm 1]
    simp only [List.append_assoc]

/-! ## Positions -/

/-- The arguments, after these were excluded. -/
def collectargs (excluded args : List S8) : Args := args.foldl appendarg (excluded.foldl excludearg Args.empty)

/-- What the trie has for each argument. -/
structure Placed (excluded args : List S8) (m : Argpos) : Prop where
  off : ∀ arg ∈ excluded, m.find arg = some (-1)
  absent : ∀ arg, arg ∉ excluded → dedupable arg = false ∨ arg ∉ args → m.find arg = none
  placed : ∀ arg, arg ∉ excluded → dedupable arg = true → arg ∈ args →
    ∃ k : Nat, args[k]? = some arg ∧ m.find arg = some ((k : Int) + 1) ∧
      if startswith arg (S "-l") = true then arg ∉ args.drop (k + 1) else arg ∉ args.take k

theorem excludearg_find (args : Args) (arg arg' : S8) :
    (excludearg args arg).positions.find arg' = if arg' = arg then some (-1) else args.positions.find arg' := by
  simp only [excludearg, Argpos.find_set, Argpos.find_insert, if_true, Option.map_some]
  split <;> rfl

/-- Excluding only. -/
theorem excluded_placed (excluded : List S8) :
    Placed excluded [] (excluded.foldl excludearg Args.empty).positions ∧
      (excluded.foldl excludearg Args.empty).list = [] ∧ (excluded.foldl excludearg Args.empty).count = 0 := by
  induction excluded using List.reverseRecOn with
  | nil => exact ⟨⟨by simp, by simp [Args.empty], by simp⟩, rfl, rfl⟩
  | append_singleton excluded x ih =>
    obtain ⟨h, hlist, hcount⟩ := ih
    rw [List.foldl_append, List.foldl_cons, List.foldl_nil]
    refine ⟨⟨?_, ?_, by simp⟩, hlist, hcount⟩
    · intro arg ha
      rw [excludearg_find]
      split
      · rfl
      · rename_i hne
        exact h.off arg ((List.mem_append.mp ha).resolve_right fun e => hne (List.mem_singleton.mp e))
    · intro arg ha hn
      rw [List.mem_append, List.mem_singleton, not_or] at ha
      rw [excludearg_find, if_neg ha.2]
      exact h.absent arg ha.1 hn

/-- What `appendarg` makes of the trie for one argument. -/
theorem appendarg_find (args : Args) (a arg : S8) :
    (appendarg args a).positions.find arg =
      if arg = a ∧ dedupable a = true then
        if (args.positions.find a).getD 0 = 0 ∨ startswith a (S "-l") = true then
          some (1 + (args.count : Int))
        else args.positions.find a
      else args.positions.find arg := by
  by_cases hd : dedupable a = true
  · simp only [appendarg, hd, if_true, and_true]
    have hz : (args.positions.insert a).find a = some ((args.positions.find a).getD 0) := by
      rw [Argpos.find_insert, if_pos rfl]
    by_cases hc : (args.positions.find a).getD 0 = 0 ∨ startswith a (S "-l") = true
    · have hset : ((args.positions.insert a).find a == some 0 || startswith a (S "-l")) = true := by
        rw [hz]; simpa [Bool.or_eq_true] using hc
      rw [if_pos hset, if_pos hc, Argpos.find_set, hz, Argpos.find_insert]
      split <;> rfl
    · have hkeep : ¬ ((args.positions.insert a).find a == some 0 || startswith a (S "-l")) = true := by
        rw [hz]; simpa [Bool.or_eq_true] using hc
      rw [if_neg hkeep, if_neg hc, Argpos.find_insert]
      rw [not_or] at hc
      split
      · cases hf : args.positions.find a with
        | none => rw [hf] at hc; exact absurd rfl hc.1
        | some p => rfl
      · rfl
  · simp only [appendarg, hd, Bool.false_eq_true, if_false, and_false]

/-- An argument more keeps the trie right, when nothing excluded starts with `-l`. -/
theorem appendarg_placed {excluded list : List S8} {args : Args}
    (hx : ∀ x ∈ excluded, startswith x (S "-l") = false) (h : Placed excluded list args.positions)
    (hcount : args.count = list.length) (a : S8) : Placed excluded (list ++ [a]) (appendarg args a).positions := by
  refine ⟨?_, ?_, ?_⟩
  · -- excluded arguments keep -1
    intro arg ha
    rw [appendarg_find]
    split
    · rename_i hc
      obtain ⟨rfl, _⟩ := hc
      rw [h.off arg ha, hx arg ha]
      rw [if_neg (by simp)]
    · exact h.off arg ha
  · intro arg ha hn
    rw [appendarg_find, if_neg ?_]
    · exact h.absent arg ha (hn.imp_right fun hm hmem => hm (List.mem_append_left _ hmem))
    · intro hc
      obtain ⟨rfl, hd⟩ := hc
      rcases hn with hn | hn
      · rw [hd] at hn; cases hn
      · exact hn (List.mem_append_right _ (List.mem_singleton_self _))
  · intro arg ha hd hmem
    by_cases he : arg = a
    · subst he
      have hlast : (list ++ [arg])[list.length]? = some arg := by simp
      by_cases hold : arg ∈ list
      · obtain ⟨k, hk, hpos, hkeep⟩ := h.placed arg ha hd hold
        have hklt := (List.getElem?_eq_some_iff.mp hk).1
        by_cases hl : startswith arg (S "-l") = true
        · -- `-l`: the new position replaces the old one
          refine ⟨list.length, hlast, ?_, ?_⟩
          · rw [appendarg_find, if_pos ⟨rfl, hd⟩, if_pos (Or.inr hl), hcount, Int.add_comm]
          · rw [if_pos hl]; simp
        · refine ⟨k, by rw [List.getElem?_append_left hklt]; exact hk, ?_, ?_⟩
          · rw [appendarg_find, if_pos ⟨rfl, hd⟩, hpos, if_neg]
            simp only [Option.getD_some, not_or]
            exact ⟨by omega, hl⟩
          · rw [if_neg hl] at hkeep ⊢
            rw [List.take_append_of_le_length (Nat.le_of_lt hklt)]
            exact hkeep
      · refine ⟨list.length, hlast, ?_, ?_⟩
        · rw [appendarg_find, if_pos ⟨rfl, hd⟩, h.absent arg ha (Or.inr hold), Option.getD_none,
            if_pos (Or.inl rfl), hcount, Int.add_comm]
        · split
          · simp
          · rw [List.take_left]; exact hold
    · have hold : arg ∈ list := (List.mem_append.mp hmem).resolve_right fun e => he (List.mem_singleton.mp e)
      obtain ⟨k, hk, hpos, hkeep⟩ := h.placed arg ha hd hold
      have hklt := (List.getElem?_eq_some_iff.mp hk).1
      refine ⟨k, by rw [List.getElem?_append_left hklt]; exact hk, ?_, ?_⟩
      · rw [appendarg_find, if_neg fun hc => he hc.1, hpos]
      · split
        · rename_i hl
          rw [if_pos hl] at hkeep
          rw [List.drop_append_of_le_length hklt, List.mem_append, List.mem_singleton, not_or]
          exact ⟨hkeep, he⟩
        · rename_i hl
          rw [if_neg hl] at hkeep
          rw [List.take_append_of_le_length (Nat.le_of_lt hklt)]
          exact hkeep

/-- What has been collected, in order, and where. -/
theorem collectargs_placed (excluded args : List S8) (hx : ∀ x ∈ excluded, startswith x (S "-l") = false) :
    Placed excluded args (collectargs excluded args).positions ∧ (collectargs excluded args).list = args ∧
      (collectargs excluded args).count = args.length := by
  induction args using List.reverseRecOn with
  | nil => exact excluded_placed excluded
  | append_singleton args a ih =>
    obtain ⟨h, hlist, hcount⟩ := ih
    have hsnoc : collectargs excluded (args ++ [a]) = appendarg (collectargs excluded args) a := by
      rw [collectargs, List.foldl_append]; rfl
    rw [hsnoc]
    refine ⟨appendarg_placed hx h hcount a, ?_, ?_⟩
    · simp only [appendarg, hlist]
    · simp only [appendarg, hcount, List.length_append, List.length_singleton]

/-! ## What is printed -/

/-- The argument at position `k` is printed. -/
def Inplace (excluded args : List S8) (k : Nat) (arg : S8) : Prop :=
  arg ∉ excluded ∧
    (dedupable arg = false ∨ (startswith arg (S "-l") = false ∧ arg ∉ args.take k) ∨
      (startswith arg (S "-l") = true ∧ arg ∉ args.drop (k + 1)))

instance (excluded args : List S8) (k : Nat) (arg : S8) : Decidable (Inplace excluded args k arg) :=
  inferInstanceAs (Decidable (_ ∧ _))

/-- The arguments that are printed, in their order. -/
def keptargs (excluded args : List S8) : List S8 :=
  (args.zipIdx.filter fun (arg, k) => Inplace excluded args k arg).map Prod.fst

/-- A place no equal element comes before is the first one. -/
theorem first_unique {args : List S8} {arg : S8} {j k : Nat} (hj : args[j]? = some arg) (hk : args[k]? = some arg)
    (h : arg ∉ args.take j) : arg ∉ args.take k ↔ j = k := by
  constructor
  · intro h'
    by_contra hne
    rcases Nat.lt_or_gt_of_ne hne with hlt | hlt
    · exact h' (List.mem_of_getElem? (by rw [List.getElem?_take, if_pos hlt, hj]))
    · exact h (List.mem_of_getElem? (by rw [List.getElem?_take, if_pos hlt, hk]))
  · intro e; exact e ▸ h

/-- A place no equal element comes after is the last one. -/
theorem last_unique {args : List S8} {arg : S8} {j k : Nat} (hj : args[j]? = some arg) (hk : args[k]? = some arg)
    (h : arg ∉ args.drop (j + 1)) : arg ∉ args.drop (k + 1) ↔ j = k := by
  have hafter : ∀ {i i' : Nat}, args[i']? = some arg → i < i' → arg ∈ args.drop (i + 1) := by
    intro i i' hi' hlt
    refine List.mem_of_getElem? (i := i' - (i + 1)) ?_
    rw [List.getElem?_drop, ← hi']
    congr 1
    omega
  constructor
  · intro h'
    by_contra hne
    rcases Nat.lt_or_gt_of_ne hne with hlt | hlt
    · exact h (hafter hk hlt)
    · exact h' (hafter hj hlt)
  · intro e; exact e ▸ h

theorem inposition_iff {excluded list : List S8} {args : Args} (h : Placed excluded list args.positions) {k : Nat}
    {arg : S8} (hk : list[k]? = some arg) : inposition args arg k = true ↔ Inplace excluded list k arg := by
  unfold inposition Inplace
  have hmem : arg ∈ list := List.mem_of_getElem? hk
  by_cases hx : arg ∈ excluded
  · rw [h.off arg hx]
    simp only [hx, not_true, false_and, iff_false, beq_iff_eq]
    omega
  by_cases hd : dedupable arg = true
  · obtain ⟨j, hj, hpos, hkeep⟩ := h.placed arg hx hd hmem
    have heq : ((j : Int) + 1 == (k : Int) + 1) = true ↔ j = k := by rw [beq_iff_eq]; omega
    rw [hpos]
    simp only [hx, not_false_eq_true, true_and, hd, Bool.true_eq_false, false_or, heq]
    by_cases hl : startswith arg (S "-l") = true
    · rw [if_pos hl] at hkeep
      simp only [hl, Bool.true_eq_false, false_and, false_or, true_and]
      exact (last_unique hj hk hkeep).symm
    · rw [if_neg hl] at hkeep
      simp only [Bool.not_eq_true] at hl
      simp only [hl, Bool.false_eq_true, false_and, or_false, true_and]
      exact (first_unique hj hk hkeep).symm
  · rw [Bool.not_eq_true] at hd
    rw [h.absent arg hx (Or.inl hd)]
    simp only [hx, hd, not_false_eq_true, true_or, and_self]

/-- An argument starts with one flag only. -/
theorem startswith_flag {x : S8} (h : startswith x (S "-I") = true ∨ startswith x (S "-L") = true) :
    startswith x (S "-l") = false := by
  rw [Bool.eq_false_iff]
  intro hl
  rw [startswith_iff] at hl
  rcases h with h | h <;>
  · rw [startswith_iff] at h
    have := List.prefix_of_prefix_length_le hl h (by decide)
    revert this
    decide

theorem written_eq {excluded args : List S8}
    (hx : ∀ x ∈ excluded, startswith x (S "-I") = true ∨ startswith x (S "-L") = true) :
    written (collectargs excluded args) = keptargs excluded args := by
  obtain ⟨h, hlist, _⟩ := collectargs_placed excluded args fun x hm => startswith_flag (hx x hm)
  rw [written, keptargs, hlist]
  congr 1
  refine List.filter_congr fun x hm => ?_
  rw [Bool.eq_iff_iff, decide_eq_true_eq]
  exact inposition_iff h (List.mem_zipIdx_iff_getElem?.mp hm)

/-- For any -I and -L arguments excluded and any arguments after that: when a run has
    printed some texts, `writeargs` goes on with the arguments that are printed at their
    position, in order, each but the first of the run after one delimiter. -/
theorem writeargs_prints (excluded args : List S8)
    (hx : ∀ x ∈ excluded, startswith x (S "-I") = true ∨ startswith x (S "-L") = true) (w : Fieldwriter)
    (before : List S8) :
    [delimiter w].intercalate before ++ (writeargs { w with args := collectargs excluded args } before.length).1 =
        [delimiter w].intercalate (before ++ (keptargs excluded args).map (rendered w)) ∧
      (writeargs { w with args := collectargs excluded args } before.length).2 =
        before.length + (keptargs excluded args).length := by
  rw [writeargs_written]
  simp only
  rw [written_eq hx]
  refine ⟨?_, rfl⟩
  have h := separated_append (delimiter w) 0 before ((keptargs excluded args).map (rendered w))
  rw [Nat.zero_add] at h
  exact h.symm

theorem writeargs_prints_repeated :
    (writeargs { newfieldwriter .any with args := collectargs [S "-L/lib"] [S "-L/lib", S "-la", S "-lb", S "-la"] }
      0).1 = S "-lb -la" := by
  have h := (writeargs_prints [S "-L/lib"] [S "-L/lib", S "-la", S "-lb", S "-la"] (by decide) (newfieldwriter .any)
    []).1
  rw [show [delimiter (newfieldwriter .any)].intercalate [] = [] from rfl, List.nil_append] at h
  rw [show (0 : Nat) = ([] : List S8).length from rfl, h]
  decide

/-! ## What a compiler sees -/

/-- The argument is `-DNAME` or `-DNAME=VALUE`. -/
def defines (name arg : S8) : Bool := arg == S "-D" ++ name || startswith arg (S "-D" ++ name ++ S "=")

/-- The argument is `-fX` or `-fno-X`. -/
def toggles (x arg : S8) : Bool := arg == S "-f" ++ x || arg == S "-fno-" ++ x

/-- The last argument of a kind, the one a compiler goes by. -/
def lastof (kind : S8 → Bool) (args : List S8) : Option S8 := (args.filter kind).getLast?

/-- No element first appears after the last one does. -/
def Settled (args : List S8) : Prop := ∀ d ∈ args.getLast?, ∀ e ∈ args, args.idxOf e ≤ args.idxOf d

instance (args : List S8) : Decidable (Settled args) :=
  match h : args.getLast? with
  | none => isTrue fun d hd => by rw [h] at hd; cases hd
  | some d =>
    decidable_of_iff (∀ e ∈ args, args.idxOf e ≤ args.idxOf d)
      ⟨fun hall d' hd => by rw [h] at hd; cases hd; exact hall, fun hs => hs d h⟩

/-- The kinds whose arguments are counted once each, at the first place. -/
structure Firstwins (excluded : List S8) (kind : S8 → Bool) : Prop where
  counted : ∀ arg, kind arg = true → dedupable arg = true ∧ startswith arg (S "-l") = false
  kept : ∀ arg, kind arg = true → arg ∉ excluded

theorem eraseDups_snoc (args : List S8) (a : S8) :
    (args ++ [a]).eraseDups = args.eraseDups ++ if a ∈ args then [] else [a] := by
  rw [List.eraseDups_append]
  split <;> simp [List.removeAll, *, List.eraseDups_cons]

/-- Of a kind that is counted once, each argument is printed where it first appears. -/
theorem keptargs_filter {excluded : List S8} {kind : S8 → Bool} (hk : Firstwins excluded kind) (args : List S8) :
    (keptargs excluded args).filter kind = (args.filter kind).eraseDups := by
  induction args using List.reverseRecOn with
  | nil => rfl
  | append_singleton args a ih =>
    -- of this kind, what is printed of the first arguments does not depend on the last one
    have hbefore :
        ((args.zipIdx.filter fun (arg, k) => Inplace excluded (args ++ [a]) k arg).map Prod.fst).filter kind =
          ((args.zipIdx.filter fun (arg, k) => Inplace excluded args k arg).map Prod.fst).filter kind := by
      rw [List.filter_map, List.filter_map, List.filter_filter, List.filter_filter]
      congr 1
      refine List.filter_congr fun x hm => ?_
      have hlt := (List.getElem?_eq_some_iff.mp (List.mem_zipIdx_iff_getElem?.mp hm)).1
      cases hc : kind x.1 with
      | false => simp [hc]
      | true =>
        obtain ⟨hd, hl⟩ := hk.counted x.1 hc
        simp [hc, Inplace, hd, hl, List.take_append_of_le_length (Nat.le_of_lt hlt)]
    have hlast : (([a].zipIdx args.length).filter fun (arg, k) => Inplace excluded (args ++ [a]) k arg).map Prod.fst =
        if Inplace excluded (args ++ [a]) args.length a then [a] else [] := by
      rw [List.zipIdx_cons, List.zipIdx_nil, List.filter_cons]
      simp only [decide_eq_true_eq]
      split <;> rfl
    rw [keptargs, List.zipIdx_append, List.filter_append, List.map_append, List.filter_append, hbefore, Nat.zero_add,
      hlast, ← keptargs, ih, List.filter_append]
    cases hc : kind a with
    | false => split <;> simp [hc]
    | true =>
      obtain ⟨hd, hl⟩ := hk.counted a hc
      have hp : Inplace excluded (args ++ [a]) args.length a ↔ a ∉ args.filter kind := by
        simp [Inplace, hk.kept a hc, hd, hl, hc]
      rw [List.filter_cons_of_pos hc, List.filter_nil, eraseDups_snoc]
      by_cases hm : a ∈ args.filter kind
      · rw [if_neg (by rw [hp]; exact not_not_intro hm), if_pos hm]; rfl
      · rw [if_pos (hp.mpr hm), if_neg hm, List.filter_cons_of_pos hc, List.filter_nil]

/-- The last of the distinct elements is the one that first appears last. -/
theorem getLast?_eraseDups (args : List S8) (d : S8) :
    args.eraseDups.getLast? = some d ↔ d ∈ args ∧ ∀ e ∈ args, args.idxOf e ≤ args.idxOf d := by
  induction args using List.reverseRecOn with
  | nil => simp
  | append_singleton args a ih =>
    rw [eraseDups_snoc]
    by_cases ha : a ∈ args
    · have hidx : ∀ e ∈ args ++ [a], (args ++ [a]).idxOf e = args.idxOf e := by
        intro e he
        apply List.idxOf_append_of_mem
        rcases List.mem_append.mp he with he | he
        · exact he
        · exact List.mem_singleton.mp he ▸ ha
      have hmem : ∀ e, e ∈ args ++ [a] ↔ e ∈ args := by
        intro e
        simp only [List.mem_append, List.mem_singleton, or_iff_left_iff_imp]
        intro he; exact he ▸ ha
      rw [if_pos ha, List.append_nil, ih, hmem]
      constructor
      · intro h
        refine ⟨h.1, fun e he => ?_⟩
        rw [hidx e he, hidx d ((hmem d).mpr h.1)]
        exact h.2 e ((hmem e).mp he)
      · intro h
        refine ⟨h.1, fun e he => ?_⟩
        rw [← hidx e ((hmem e).mpr he), ← hidx d ((hmem d).mpr h.1)]
        exact h.2 e ((hmem e).mpr he)
    · have hlen : (args ++ [a]).idxOf a = args.length := by
        rw [List.idxOf_append_of_notMem ha, List.idxOf_cons_self, Nat.add_zero]
      rw [if_neg ha, List.getLast?_concat, Option.some.injEq]
      constructor
      · intro e
        subst e
        refine ⟨List.mem_append_right _ (List.mem_singleton_self _), fun e he => ?_⟩
        rw [hlen]
        rcases List.mem_append.mp he with he | he
        · rw [List.idxOf_append_of_mem he]; exact Nat.le_of_lt (List.idxOf_lt_length_of_mem he)
        · rw [List.mem_singleton.mp he]
          exact Nat.le_of_eq hlen
      · intro h
        have hle := h.2 a (List.mem_append_right _ (List.mem_singleton_self _))
        rw [hlen] at hle
        rcases List.mem_append.mp h.1 with hd | hd
        · rw [List.idxOf_append_of_mem hd] at hle
          exact absurd (List.idxOf_lt_length_of_mem hd) (Nat.not_lt.mpr hle)
        · exact (List.mem_singleton.mp hd).symm

/-- Of a kind that is counted once the last argument stays the last one exactly when no
    other first appears after it. -/
theorem lastof_keptargs {excluded : List S8} {kind : S8 → Bool} (hk : Firstwins excluded kind) (args : List S8) :
    lastof kind (keptargs excluded args) = lastof kind args ↔ Settled (args.filter kind) := by
  unfold lastof Settled
  rw [keptargs_filter hk]
  cases hlast : (args.filter kind).getLast? with
  | none => simp [List.getLast?_eq_none_iff.mp hlast]
  | some d =>
    rw [getLast?_eraseDups]
    simp only [Option.mem_some_iff, forall_eq']
    exact and_iff_right (List.mem_of_getLast? hlast)

theorem firstwins_flag {excluded : List S8}
    (hx : ∀ x ∈ excluded, startswith x (S "-I") = true ∨ startswith x (S "-L") = true) {kind : S8 → Bool} {c : UInt8}
    (hc : c ∈ S "Df") (hkind : ∀ arg, kind arg = true → ∃ d rest, arg = 0x2d :: c :: d :: rest) :
    Firstwins excluded kind := by
  have hflag : ∀ {x rest : S8} {d : UInt8}, x.length = 2 → x <+: 0x2d :: c :: d :: rest → x = [0x2d, c] := by
    intro x rest d hlen hpre
    rw [List.prefix_iff_eq_take, hlen] at hpre
    exact hpre
  have hne : ∀ x ∈ [S "-l", S "-I", S "-L"], x ≠ [0x2d, c] := by
    rcases List.mem_pair.mp hc with rfl | rfl <;> decide
  refine ⟨fun arg ha => ⟨?_, ?_⟩, fun arg ha hm => ?_⟩
  · obtain ⟨d, rest, rfl⟩ := hkind arg ha
    apply dedupable_flag
    rcases List.mem_pair.mp hc with rfl | rfl <;> decide
  · obtain ⟨d, rest, rfl⟩ := hkind arg ha
    rw [Bool.eq_false_iff]
    intro hl
    exact hne _ (by simp) (hflag rfl (startswith_iff.mp hl))
  · obtain ⟨d, rest, rfl⟩ := hkind arg ha
    rcases hx _ hm with hs | hs
    · exact hne _ (by simp) (hflag rfl (startswith_iff.mp hs))
    · exact hne _ (by simp) (hflag rfl (startswith_iff.mp hs))

theorem defines_flag {name arg : S8} (hn : name ≠ []) (h : defines name arg = true) :
    ∃ d rest, arg = 0x2d :: 0x44 :: d :: rest := by
  obtain ⟨d, name, rfl⟩ := List.exists_cons_of_ne_nil hn
  rw [defines, Bool.or_eq_true, beq_iff_eq, startswith_iff] at h
  rcases h with rfl | ⟨value, rfl⟩
  · exact ⟨d, name, rfl⟩
  · exact ⟨d, name ++ S "=" ++ value, by simp [S]; rfl⟩

theorem toggles_flag {x arg : S8} (hn : x ≠ []) (h : toggles x arg = true) :
    ∃ d rest, arg = 0x2d :: 0x66 :: d :: rest := by
  obtain ⟨d, x, rfl⟩ := List.exists_cons_of_ne_nil hn
  rw [toggles, Bool.or_eq_true, beq_iff_eq, beq_iff_eq] at h
  rcases h with rfl | rfl
  · exact ⟨d, x, rfl⟩
  · exact ⟨0x6e, S "o-" ++ d :: x, rfl⟩

/-- For every macro name, and every flag: the last of its arguments that is printed is the
    last of the original ones exactly when none first appears after that one does. -/
theorem lastof_written_iff (excluded args : List S8)
    (hx : ∀ x ∈ excluded, startswith x (S "-I") = true ∨ startswith x (S "-L") = true) :
    (∀ name, name ≠ [] → (lastof (defines name) (written (collectargs excluded args)) = lastof (defines name) args ↔
        Settled (args.filter (defines name)))) ∧
      ∀ x, x ≠ [] → (lastof (toggles x) (written (collectargs excluded args)) = lastof (toggles x) args ↔
        Settled (args.filter (toggles x))) := by
  rw [written_eq hx]
  refine ⟨fun name hn => ?_, fun x hn => ?_⟩
  · exact lastof_keptargs (firstwins_flag hx (by decide) fun arg => defines_flag hn) args
  · exact lastof_keptargs (firstwins_flag hx (by decide) fun arg => toggles_flag hn) args

theorem lastof_written_iff_repeated :
    lastof (defines (S "A")) (written (collectargs [] [S "-DA=2", S "-DA", S "-DB", S "-DA"])) = some (S "-DA") := by
  rw [((lastof_written_iff [] [S "-DA=2", S "-DA", S "-DB", S "-DA"] (by simp)).1 (S "A") (by decide)).mpr (by decide)]
  decide

/-- A macro defined again as it was at first, and a flag set again, keep their second
    setting. -/
theorem redefinition_lost :
    lastof (defines (S "A")) (written (collectargs [] [S "-DA=1", S "-DA=2", S "-DA=1"])) ≠
        lastof (defines (S "A")) [S "-DA=1", S "-DA=2", S "-DA=1"] ∧
      lastof (toggles (S "pic")) (written (collectargs [] [S "-fpic", S "-fno-pic", S "-fpic"])) ≠
        lastof (toggles (S "pic")) [S "-fpic", S "-fno-pic", S "-fpic"] := by
  decide

end GnuWindows.PkgConfig
