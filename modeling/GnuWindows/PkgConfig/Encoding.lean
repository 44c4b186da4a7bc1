/-
  GnuWindows.PkgConfig.Encoding — where the bytes of the path encoding can turn up.

  A string is `Clean` when it holds none of the bytes 0xf8 to 0xfe. What `dequote` returns
  is always clean. What `expand` writes is clean when every string it reads is, those it
  reaches by references (`Reached`); and when it succeeds only then, as long as a value
  that is not clean has no reference of its own, which an encoded path never has.

  Proved: `appendfield_clean`, `writeargs_clean`, `expand_clean`, `expand_unclean`.
-/
import GnuWindows.Lib.Hoare
import GnuWindows.PkgConfig.PathProofs

namespace GnuWindows.PkgConfig

open GnuWindows.Lib.Hoare (Ends)

/-- A byte of the path encoding. -/
def encoded (c : UInt8) : Bool := 0xf8 ≤ c && c ≤ 0xfe

def Clean (s : S8) : Prop := ∀ c ∈ s, encoded c = false

instance (s : S8) : Decidable (Clean s) := List.decidableBAll _ s

theorem clean_nil : Clean [] := by simp [Clean]

theorem clean_append {s t : S8} : Clean (s ++ t) ↔ Clean s ∧ Clean t := List.forall_mem_append

theorem Clean.of_subset {s t : S8} (h : Clean t) (hs : ∀ c ∈ s, c ∈ t) : Clean s := fun c hc => h c (hs c hc)

/-! ## Arguments -/

/-- `pathdecode` has a case for every byte of the encoding. -/
theorem encoded_pathdecode (c : UInt8) : encoded (pathdecode c) = false := by
  unfold pathdecode
  split
  case h_8 =>
    simp only [encoded, Bool.and_eq_false_iff, decide_eq_false_iff_not, UInt8.le_iff_toNat_le]
    simp only [← UInt8.toNat_inj] at *
    simp at *
    omega
  all_goals rfl

theorem encoded_quotedbyte (c : UInt8) : encoded (quotedbyte c) = false := by
  unfold quotedbyte
  split
  · rfl
  · exact encoded_pathdecode c

theorem clean_printed (c : UInt8) : Clean (printed c) := by
  rcases printed_cases c with h | ⟨h, hq, -⟩
  · rw [h]
    simp only [Clean, List.mem_cons, List.not_mem_nil, or_false, forall_eq_or_imp, forall_eq]
    exact ⟨rfl, encoded_quotedbyte c⟩
  · rw [h, ← hq]
    simp only [Clean, List.mem_cons, List.not_mem_nil, or_false, forall_eq]
    exact encoded_quotedbyte c

theorem dequoteloop_clean (s : S8) (quote : Quote) : Clean (dequoteloop s quote false).1 := by
  induction s generalizing quote with
  | nil => exact clean_nil
  | cons c s ih =>
    rw [dequoteloop, dequotebyte_eq]
    by_cases hend : quote = .none ∧ whitespace c = true
    · rw [if_pos hend]; exact clean_nil
    · rw [if_neg hend]
      by_cases hq : nextquote quote c = quote
      · rw [if_pos hq]; exact clean_append.mpr ⟨clean_printed c, ih quote⟩
      · rw [if_neg hq]; exact clean_append.mpr ⟨clean_nil, ih _⟩

theorem dequote_clean (s : S8) : Clean (dequote s).arg := by
  simp only [dequote]
  split
  · exact clean_nil
  · exact dequoteloop_clean _ _

/-- Every argument collected so far is clean, and so is the byte between them. -/
structure CleanWriter (w : Fieldwriter) : Prop where
  args : ∀ arg ∈ w.args.list, Clean arg
  delim : encoded w.delim = false

theorem appendfield_clean {err : Errbuf} {w : Fieldwriter} (hw : CleanWriter w) (p : Pkg) (field : S8) :
    Ends (appendfield err w p field) CleanWriter fun f => f = failquote err p := by
  induction w, field using appendfield.induct with
  | case1 w => rw [appendfield, dif_pos rfl]; exact hw
  | case2 w field hf r hok ih =>
    rw [appendfield, dif_neg hf, dif_pos hok]
    apply ih
    split
    · refine ⟨?_, hw.delim⟩
      intro arg harg
      rcases List.mem_append.mp harg with h | h
      · exact hw.args arg h
      · rw [List.mem_singleton.mp h]; exact dequote_clean field
    · exact hw
  | case3 w field hf r hok => rw [appendfield, dif_neg hf, dif_neg hok]; exact rfl

theorem insertsyspath_clean {w : Fieldwriter} (hw : CleanWriter w) (path : S8) (delim flag : UInt8) :
    CleanWriter (insertsyspath w path delim flag) := by
  induction w, path using insertsyspath.induct delim flag with
  | case1 w => rw [insertsyspath, dif_pos rfl]; exact hw
  | case2 w path hp c hc ih => rw [insertsyspath, dif_neg hp]; simp only; rw [if_pos hc]; exact ih hw
  | case3 w path hp c hc dr hdr ih =>
    rw [insertsyspath, dif_neg hp]; simp only; rw [if_neg hc, if_pos hdr]; exact ih ⟨hw.args, hw.delim⟩
  | case4 w path hp c hc dr hdr ih =>
    rw [insertsyspath, dif_neg hp]; simp only; rw [if_neg hc, if_neg hdr]; exact ih hw

theorem msvcize_clean {arg : S8} (h : Clean arg) : Clean (msvcize arg) := by
  have hdrop : Clean (arg.drop 2) := h.of_subset fun c hc => List.mem_of_mem_drop hc
  unfold msvcize
  split
  · exact clean_append.mpr ⟨by decide, hdrop⟩
  · split
    · exact clean_append.mpr ⟨by decide, hdrop⟩
    · split
      · exact clean_append.mpr ⟨hdrop, by decide⟩
      · split
        · exact clean_append.mpr ⟨by decide, hdrop⟩
        · split
          · decide
          · split
            · decide
            · exact h

theorem writeloop_clean {w : Fieldwriter} {delim : UInt8} (hd : encoded delim = false) {l : List S8}
    (hl : ∀ arg ∈ l, Clean arg) (position argcount : Nat) : Clean (writeloop w delim l position argcount).1 := by
  induction l generalizing position argcount with
  | nil => exact clean_nil
  | cons arg l ih =>
    have harg := hl arg List.mem_cons_self
    have htail := fun position argcount => ih (fun a ha => hl a (List.mem_cons_of_mem _ ha)) position argcount
    rw [writeloop]
    split
    · refine clean_append.mpr ⟨clean_append.mpr ⟨?_, ?_⟩, htail _ _⟩
      · split
        · simpa [Clean] using hd
        · exact clean_nil
      · split
        · exact msvcize_clean harg
        · exact harg
    · exact htail _ _

theorem writeargs_clean {w : Fieldwriter} (hw : CleanWriter w) (argcount : Nat) : Clean (writeargs w argcount).1 := by
  refine writeloop_clean ?_ hw.args 0 argcount
  split
  · exact hw.delim
  · rfl

/-! ## Expansions -/

/-- The names referenced in a string. -/
def refs : S8 → List S8
  | c :: d :: t =>
    if c = 0x24 ∧ d = 0x7b then refname t :: refs (reftail t)
    else if c = 0x24 ∧ d = 0x24 then refs t
    else refs (d :: t)
  | _ => []
termination_by s => s.length
decreasing_by
  · have := reftail_lt t; simp only [List.length_cons]; omega
  · simp only [List.length_cons]; omega
  · simp only [List.length_cons]; omega

/-- The strings read for a string: itself, and those read for the values of its
    references. -/
inductive Reached (look : S8 → Option S8) : S8 → S8 → Prop where
  | self (s : S8) : Reached look s s
  | ref {s name value v : S8} : name ∈ refs s → look name = some value → Reached look value v → Reached look s v

theorem refs_subset {s name : S8} (h : name ∈ refs s) : ∀ c ∈ name, c ∈ s := by
  induction s using refs.induct with
  | case1 c d t hc ih =>
    rw [refs, if_pos hc] at h
    rcases List.mem_cons.mp h with rfl | h
    · exact fun b hb => List.mem_cons_of_mem _ (List.mem_cons_of_mem _ ((List.takeWhile_sublist _).subset hb))
    · exact fun b hb => List.mem_cons_of_mem _ (List.mem_cons_of_mem _ (List.mem_of_mem_drop (ih h b hb)))
  | case2 c d t h1 hc ih =>
    rw [refs, if_neg h1, if_pos hc] at h
    exact fun b hb => List.mem_cons_of_mem _ (List.mem_cons_of_mem _ (ih h b hb))
  | case3 c d t h1 h2 ih =>
    rw [refs, if_neg h1, if_neg h2] at h
    exact fun b hb => List.mem_cons_of_mem _ (ih h b hb)
  | case4 s hs =>
    unfold refs at h
    split at h
    · exact absurd rfl (hs _ _ _)
    · cases h

/-- The text is clean, and so is the name it stopped at. -/
def CleanSubst (r : Subst) : Prop := Clean r.1 ∧ ∀ name, r.2 = some (.undefined name) → Clean name

theorem CleanSubst.andThen {a b : Subst} (ha : CleanSubst a) (hb : CleanSubst b) : CleanSubst (a.andThen b) := by
  unfold Subst.andThen
  split
  · rename_i e he
    exact ⟨ha.1, fun name hn => ha.2 name (he.trans hn)⟩
  · exact ⟨clean_append.mpr ⟨ha.1, hb.1⟩, hb.2⟩

theorem cleanSubst_text {s : S8} (h : Clean s) : CleanSubst (s, none) := ⟨h, fun _ hn => by cases hn⟩

theorem substAt_clean {deeper : S8 → Subst} {s : S8} (hs : Clean s) (hd : ∀ name ∈ refs s, CleanSubst (deeper name)) :
    CleanSubst (substAt deeper s) := by
  induction s using substAt.induct with
  | case1 c d t hc ih =>
    rw [refs, if_pos hc] at hd
    rw [substAt, if_pos hc]
    refine (hd _ List.mem_cons_self).andThen (ih ?_ fun name hn => hd name (List.mem_cons_of_mem _ hn))
    exact hs.of_subset fun b hb => List.mem_cons_of_mem _ (List.mem_cons_of_mem _ (List.mem_of_mem_drop hb))
  | case2 c d t h1 hc ih =>
    rw [refs, if_neg h1, if_pos hc] at hd
    rw [substAt, if_neg h1, if_pos hc]
    refine (cleanSubst_text (by decide)).andThen (ih ?_ hd)
    exact hs.of_subset fun b hb => List.mem_cons_of_mem _ (List.mem_cons_of_mem _ hb)
  | case3 c d t h1 h2 ih =>
    rw [refs, if_neg h1, if_neg h2] at hd
    rw [substAt, if_neg h1, if_neg h2]
    refine (cleanSubst_text ?_).andThen (ih (hs.of_subset fun b hb => List.mem_cons_of_mem _ hb) hd)
    exact hs.of_subset fun b hb => by rw [List.mem_singleton.mp hb]; exact List.mem_cons_self
  | case4 s hnot =>
    unfold substAt
    split
    · exact absurd rfl (hnot _ _ _)
    · exact cleanSubst_text hs

theorem subst_clean {look : S8 → Option S8} (n : Nat) {s : S8} (h : ∀ v, Reached look s v → Clean v) :
    CleanSubst (subst look n s) := by
  have hs := h s (.self s)
  induction n generalizing s with
  | zero => exact substAt_clean hs fun name _ => ⟨clean_nil, fun _ hn => by cases hn⟩
  | succ n ih =>
    apply substAt_clean hs
    intro name hname
    unfold substRef
    cases hl : look name with
    | none => exact ⟨clean_nil, fun name' hn => by cases hn; exact hs.of_subset (refs_subset hname)⟩
    | some value =>
      have hreach : ∀ v, Reached look value v → Clean v := fun v hv => h v (.ref hname hl hv)
      exact ih hreach (hreach value (.self value))

/-- What `expand` writes, and the message it fails with, when all it reads is clean. -/
theorem expand_clean (err : Errbuf) {global : Env} {p : Pkg} {str : S8}
    (h : ∀ v, Reached (lookup global p.env) str v → Clean v) :
    Clean (expand err global p str).out ∧
      ∀ f, (expand err global p str).fail = some f → Clean p.path → Clean f.text := by
  have hsub := subst_clean 127 h
  have hrep := expand_reports err global p str
  refine ⟨hsub.1.of_subset hrep.pre.subset, ?_⟩
  intro f hf hpath
  rw [hrep.fail, Option.map_eq_some_iff] at hf
  obtain ⟨stop, hstop, rfl⟩ := hf
  cases stop with
  | recursion =>
    simp only [SubstStop.fail, failrecursion, diagnose, clean_append]
    exact ⟨by decide, ⟨by decide, hpath⟩, by decide⟩
  | undefined name =>
    simp only [SubstStop.fail, failundefined, diagnose, clean_append]
    exact ⟨by decide, ⟨⟨⟨by decide, hsub.2 name hstop⟩, by decide⟩, hpath⟩, by decide⟩

/-! ## What is not clean is written -/

/-- Clean, or without a reference: a path that is encoded has no dollar. -/
def Tame (s : S8) : Prop := Clean s ∨ 0x24 ∉ s

theorem tame_s8pathencode (s : S8) : Tame (s8pathencode s) := by
  refine Or.inr ?_
  intro h
  rw [s8pathencode_eq_map] at h
  obtain ⟨c, _, hc⟩ := List.mem_map.mp h
  exact pathencode_ne_dollar c hc

theorem Subst.andThen_none {a b : Subst} (h : (a.andThen b).2 = none) :
    a.2 = none ∧ b.2 = none ∧ (a.andThen b).1 = a.1 ++ b.1 := by
  unfold andThen at h ⊢
  cases ha : a.2 with
  | none => rw [ha] at h; exact ⟨rfl, h, rfl⟩
  | some e => rw [ha] at h; cases h

/-- An evaluation that does not stop evaluates every reference, into its text. -/
theorem substAt_refs {deeper : S8 → Subst} {s : S8} (h : (substAt deeper s).2 = none)
    (hc : Clean (substAt deeper s).1) : ∀ name ∈ refs s, (deeper name).2 = none ∧ Clean (deeper name).1 := by
  induction s using substAt.induct with
  | case1 c d t hcd ih =>
    rw [substAt, if_pos hcd] at h hc
    obtain ⟨h1, h2, h3⟩ := Subst.andThen_none h
    rw [h3, clean_append] at hc
    intro name hn
    rw [refs, if_pos hcd] at hn
    rcases List.mem_cons.mp hn with rfl | hn
    · exact ⟨h1, hc.1⟩
    · exact ih h2 hc.2 name hn
  | case2 c d t h1 hcd ih =>
    rw [substAt, if_neg h1, if_pos hcd] at h hc
    obtain ⟨-, h2, h3⟩ := Subst.andThen_none h
    rw [h3, clean_append] at hc
    rw [refs, if_neg h1, if_pos hcd]
    exact ih h2 hc.2
  | case3 c d t h1 h2 ih =>
    rw [substAt, if_neg h1, if_neg h2] at h hc
    obtain ⟨-, h4, h3⟩ := Subst.andThen_none h
    rw [h3, clean_append] at hc
    rw [refs, if_neg h1, if_neg h2]
    exact ih h4 hc.2
  | case4 s hnot =>
    unfold refs
    split
    · exact absurd rfl (hnot _ _ _)
    · exact fun name hn => by cases hn

theorem subst_unclean {look : S8 → Option S8} (hlook : ∀ name v, look name = some v → Tame v) (n : Nat) {s : S8}
    (hs : Tame s) (h : (subst look n s).2 = none) (hc : Clean (subst look n s).1) {v : S8} (hv : Reached look s v) :
    Clean v := by
  induction hv generalizing n with
  | self s =>
    apply hs.elim id
    intro hplain
    rwa [subst_plain look n hplain] at hc
  | @ref s name value v hname hl _ ih =>
    cases n with
    | zero => exact absurd (substAt_refs h hc name hname).1 (by simp)
    | succ n =>
      have hdeep := substAt_refs h hc name hname
      simp only [substRef, hl] at hdeep
      exact ih n (hlook name value hl) hdeep.1 hdeep.2

theorem expand_unclean {err : Errbuf} {global : Env} {p : Pkg} {str : S8}
    (hlook : ∀ name v, lookup global p.env name = some v → Tame v) (hstr : Tame str)
    (h : (expand err global p str).fail = none) (hc : Clean (expand err global p str).out) {v : S8}
    (hv : Reached (lookup global p.env) str v) : Clean v := by
  have hrep := expand_reports err global p str
  rw [hrep.fail, Option.map_eq_none_iff] at h
  rw [hrep.out h] at hc
  exact subst_unclean hlook 127 hstr h hc hv

end GnuWindows.PkgConfig
