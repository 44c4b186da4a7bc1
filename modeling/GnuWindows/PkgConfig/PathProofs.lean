/-
  GnuWindows.PkgConfig.PathProofs — directories through encoding, expansion and dequoting.

  A directory is encoded before it is bound to a variable, so that the spaces, dollars and
  parentheses in it are not taken for syntax, and decoded when an argument is printed. The
  encoding covers no quote: `dequote` takes those for quotes.

  Proved:
  - `prefix_roundtrip_iff`: `-I${prefix}` with a suffix comes out as the directory and
    the suffix exactly when the directory holds no quote.
-/
import GnuWindows.PkgConfig.DequoteProofs
import GnuWindows.PkgConfig.ExpandProofs

namespace GnuWindows.PkgConfig

/-! ## Expansion -/

theorem finddollar_none {s : S8} (h : 0x24 ∉ s) : finddollar s = none := by
  cases hf : finddollar s with
  | none => rfl
  | some r =>
    obtain ⟨head, b, t⟩ := r
    exact absurd (by rw [finddollar_some hf]; simp) h

theorem finddollar_ref {pre : S8} (h : 0x24 ∉ pre) (t : S8) :
    finddollar (pre ++ 0x24 :: 0x7b :: t) = some (pre, true, t) := by
  induction pre with
  | nil => simp [finddollar]
  | cons c pre ih =>
    simp only [List.mem_cons, not_or] at h
    have hc : ¬ (c == 0x24) = true := by simpa using Ne.symm h.1
    cases pre with
    | nil => simp [finddollar, Ne.symm h.1]
    | cons d pre =>
      rw [List.cons_append, List.cons_append, finddollar, ← List.cons_append, ih h.2]
      simp [hc]

/-- A string without dollars is its own expansion. -/
theorem subst_plain (look : S8 → Option S8) (n : Nat) {s : S8} (h : 0x24 ∉ s) : subst look n s = (s, none) := by
  cases n <;> rw [subst, substAt_finddollar, finddollar_none h]

theorem expand_subst (err : Errbuf) {global : Env} {p : Pkg} {str out : S8}
    (h : subst (lookup global p.env) 127 str = (out, none)) : expand err global p str = ⟨out, none⟩ := by
  have hreports := expand_reports err global p str
  rw [h] at hreports
  have hout := hreports.out rfl
  have hfail := hreports.fail
  cases he : expand err global p str with
  | mk out' fail =>
    rw [he] at hout hfail
    simp only [Option.map_none] at hout hfail
    rw [hout, hfail]

/-- A reference between dollar-free strings, with a dollar-free value. -/
theorem expand_reference (err : Errbuf) (pre post : S8) {global : Env} {p : Pkg} {name value : S8}
    (hpre : 0x24 ∉ pre) (hname : 0x7d ∉ name) (hpost : 0x24 ∉ post) (hvalue : 0x24 ∉ value)
    (hlook : lookup global p.env name = some value) :
    expand err global p (pre ++ 0x24 :: 0x7b :: (name ++ 0x7d :: post)) = ⟨pre ++ value ++ post, none⟩ := by
  have hrefname : refname (name ++ 0x7d :: post) = name := by
    rw [refname, List.takeWhile_append_of_pos]
    · simp
    · intro c hc; rw [bne_iff_ne]; intro he; subst he; exact hname hc
  have hreftail : reftail (name ++ 0x7d :: post) = post := by
    rw [reftail, hrefname, List.drop_append]; simp
  have hs : subst (lookup global p.env) 127 (pre ++ 0x24 :: 0x7b :: (name ++ 0x7d :: post)) =
      (pre ++ value ++ post, none) := by
    rw [subst, substAt_finddollar, finddollar_ref hpre]
    simp only [hrefname, hreftail, substRef, hlook, subst_plain _ _ hvalue]
    rw [substAt_finddollar, finddollar_none hpost]
    simp
  exact expand_subst err hs

/-! ## Bytes that are not syntax -/

theorem pathencode_ne_dollar (c : UInt8) : pathencode c ≠ 0x24 := by
  unfold pathencode
  split <;> first | decide | assumption

theorem whitespace_pathencode (c : UInt8) : whitespace (pathencode c) = false := by
  unfold pathencode
  split <;> first | rfl | simp_all [whitespace]

theorem pathencode_quote (c : UInt8) : (pathencode c = 0x27 ∨ pathencode c = 0x22) ↔ (c = 0x27 ∨ c = 0x22) := by
  unfold pathencode
  split <;> first | decide | rfl

theorem pathdecode_of_lt {c : UInt8} (h : c < 0xf8) : pathdecode c = c := by
  unfold pathdecode
  split <;> first | exact absurd h (by decide) | rfl

theorem pathdecode_pathencode (c : UInt8) (h : c < 0xf8) : pathdecode (pathencode c) = c := by
  unfold pathencode
  split <;> first | rfl | exact pathdecode_of_lt h

/-- Letters, digits and `/`, `.`, `_` and `-`. -/
def suffixbyte (c : UInt8) : Bool :=
  (0x61 ≤ c && c ≤ 0x7a) || (0x41 ≤ c && c ≤ 0x5a) || digit c || c == 0x2f || c == 0x2e || c == 0x5f || c == 0x2d

theorem suffixbyte_plain (c : UInt8) (h : suffixbyte c = true) :
    c ≠ 0x24 ∧ whitespace c = false ∧ c ≠ 0x27 ∧ c ≠ 0x22 ∧ pathdecode c = c := by
  have hne : ∀ d, suffixbyte d = false → c ≠ d := by
    intro d hd he
    subst he
    rw [h] at hd
    cases hd
  refine ⟨hne _ (by decide), ?_, hne _ (by decide), hne _ (by decide), ?_⟩
  · simp [whitespace, hne 0x09 (by decide), hne 0x0a (by decide), hne 0x0d (by decide), hne 0x20 (by decide)]
  · unfold pathdecode
    split <;> first | exact absurd h (by decide) | rfl

/-! ## Dequoting -/

theorem splitword_clean {s : S8} (h : ∀ c ∈ s, whitespace c = false ∧ c ≠ 0x27 ∧ c ≠ 0x22) :
    splitword false .none s = some (s.map pathdecode, []) := by
  induction s with
  | nil => simp [splitword]
  | cons c s ih =>
    obtain ⟨hw, h1, h2⟩ := h c List.mem_cons_self
    have hs : splitstep false .none c s = some ([pathdecode c], .none, s) := by simp [splitstep, hw, h1, h2]
    rw [splitword_step hs, ih fun c hc => h c (List.mem_cons_of_mem _ hc)]
    rfl

/-- A word is no longer than what it was read from. -/
theorem splitword_length {quote : Quote} {s : S8} {w : S8 × S8} (h : splitword false quote s = some w) :
    w.1.length ≤ s.length := by
  refine splitword_induction (C := fun _ s w => w.1.length ≤ s.length) (Nat.le_refl _) (fun _ _ _ => Nat.zero_le _) ?_ h
  intro quote c s r w hs _ ih
  obtain ⟨hr, hlen⟩ := splitstep_false hs
  rw [hr] at ih
  simp only [List.length_append, List.length_cons] at ih ⊢
  omega

/-- And it is shorter when that had a quote. -/
theorem splitword_length_lt {s : S8} {w : S8 × S8} (h : splitword false .none s = some w) (hnil : w.2 = [])
    (hq : 0x27 ∈ s ∨ 0x22 ∈ s) : w.1.length < s.length := by
  induction s generalizing w with
  | nil => simp at hq
  | cons c s ih =>
    have hs := splitstep_eq .none c s
    by_cases hw : whitespace c = true
    · rw [if_pos ⟨rfl, hw⟩] at hs
      rw [splitword_stop hs] at h
      cases h; cases hnil
    · rw [if_neg (fun e => hw e.2)] at hs
      by_cases hn : nextquote .none c = .none
      · rw [if_pos hn] at hs
        rw [splitword_step hs, Option.map_eq_some_iff] at h
        obtain ⟨w', hw', rfl⟩ := h
        have hc : ¬ 0x27 = c ∧ ¬ 0x22 = c := by
          constructor <;> intro he <;> subst he <;> cases hn
        have := ih hw' hnil (by simpa [hc.1, hc.2] using hq)
        simp only [List.length_append, List.length_cons, List.length_nil]
        omega
      · rw [if_neg hn] at hs
        rw [splitword_step hs, Option.map_eq_some_iff] at h
        obtain ⟨w', hw', rfl⟩ := h
        exact Nat.lt_succ_of_le (splitword_length hw')

/-! ## The round trip -/

/-- The field text `-I${prefix}` with the suffix expands, and dequotes to one argument for
    the directory and the suffix. -/
def PrefixRoundTrips (err : Errbuf) (global : Env) (p : Pkg) (d x : S8) : Prop :=
  let e := expand err global p (S "-I$\x7bprefix\x7d" ++ x)
  e.fail = none ∧ (dequote e.out).ok = true ∧ (dequote e.out).tail = [] ∧
    unescape (dequote e.out).arg = S "-I" ++ d ++ x

instance (err : Errbuf) (global : Env) (p : Pkg) (d x : S8) : Decidable (PrefixRoundTrips err global p d x) :=
  inferInstanceAs (Decidable (_ ∧ _ ∧ _ ∧ _))

/-- A directory bound to `prefix` in its encoding is what `-I${prefix}` gives the compiler
    exactly when it holds no quote. -/
theorem prefix_roundtrip_iff (err : Errbuf) {global : Env} {p : Pkg} {d x : S8} (hd : ∀ c ∈ d, c < 0xf8 ∧ c ≠ 0)
    (hx : ∀ c ∈ x, suffixbyte c = true) (hglobal : global.find (S "prefix") = none)
    (henv : p.env.find (S "prefix") = some (some (s8pathencode d))) :
    PrefixRoundTrips err global p d x ↔ 0x27 ∉ d ∧ 0x22 ∉ d := by
  have hlook : lookup global p.env (S "prefix") = some (d.map pathencode) := by
    rw [lookup_eq_binding, binding, hglobal, henv, ← s8pathencode_eq_map]; rfl
  have hexp := expand_reference err (S "-I") x (by decide) (by decide)
    (fun hm => (suffixbyte_plain _ (hx _ hm)).1 rfl)
    (fun hm => by obtain ⟨c, _, hc⟩ := List.mem_map.mp hm; exact pathencode_ne_dollar c hc) hlook
  have hstr : S "-I$\x7bprefix\x7d" ++ x = S "-I" ++ 0x24 :: 0x7b :: (S "prefix" ++ 0x7d :: x) := rfl
  have hhead : (S "-I" ++ d.map pathencode ++ x).dropWhile whitespace = S "-I" ++ d.map pathencode ++ x := rfl
  have hdq := dequote_splitword (S "-I" ++ d.map pathencode ++ x)
  rw [hhead] at hdq
  unfold PrefixRoundTrips
  rw [hstr, hexp]
  simp only [true_and]
  constructor
  · intro htrip
    obtain ⟨hok, htail, harg⟩ := htrip
    cases hw : splitword false .none (S "-I" ++ d.map pathencode ++ x) with
    | none => rw [hw] at hdq; rw [hdq] at hok; cases hok
    | some w =>
      rw [hw] at hdq
      rw [← not_or]
      intro hq
      have hlt := splitword_length_lt hw (by rw [← hdq.2.2, htail]) (by
        rcases hq with hq | hq
        · left; simp only [List.mem_append, List.mem_map]; exact Or.inl (Or.inr ⟨_, hq, rfl⟩)
        · right; simp only [List.mem_append, List.mem_map]; exact Or.inl (Or.inr ⟨_, hq, rfl⟩))
      rw [← hdq.2.1, harg] at hlt
      simp at hlt
  · intro hquotes
    obtain ⟨h1, h2⟩ := hquotes
    have hclean : ∀ c ∈ S "-I" ++ d.map pathencode ++ x, whitespace c = false ∧ c ≠ 0x27 ∧ c ≠ 0x22 := by
      intro c hc
      rw [List.mem_append, List.mem_append] at hc
      rcases hc with (hc | hc) | hc
      · have hI : ∀ c ∈ S "-I", whitespace c = false ∧ c ≠ 0x27 ∧ c ≠ 0x22 := List.all_iff_forall_prop.mp (by decide)
        exact hI c hc
      · obtain ⟨b, hb, rfl⟩ := List.mem_map.mp hc
        refine ⟨whitespace_pathencode b, ?_⟩
        rw [← not_or, pathencode_quote]
        intro hquote
        rcases hquote with rfl | rfl
        · exact h1 hb
        · exact h2 hb
      · obtain ⟨_, h1, h2, h3, _⟩ := suffixbyte_plain _ (hx c hc)
        exact ⟨h1, h2, h3⟩
    rw [splitword_clean hclean] at hdq
    refine ⟨hdq.1, hdq.2.2, ?_⟩
    have hmapd : (d.map pathencode).map pathdecode = d := by
      rw [List.map_map]
      exact (List.map_congr_left fun c hc => pathdecode_pathencode _ (hd c hc).1).trans (List.map_id d)
    have hmapx : x.map pathdecode = x :=
      (List.map_congr_left fun c hc => (suffixbyte_plain _ (hx c hc)).2.2.2.2).trans (List.map_id x)
    rw [hdq.2.1]
    simp only [List.map_append, hmapd, hmapx]
    rfl

/-- A package with `prefix` bound as `setprefix` binds it. -/
def prefixed (d : S8) : Pkg := { Pkg.zero with env := Env.empty.bind (S "prefix") (some (s8pathencode d)) }

theorem prefix_roundtrip_iff_spaces :
    PrefixRoundTrips .stderr Env.empty (prefixed (S "C:\\Program Files (x86)\\$a")) (S "C:\\Program Files (x86)\\$a")
      (S "/include") :=
  (prefix_roundtrip_iff .stderr (List.all_iff_forall_prop.mp (by decide)) (List.all_eq_true.mp (by decide)) rfl
    (Env.find_bind_self _ _ _)).mpr (by decide)

/-- The apostrophe in a directory opens a quote. -/
theorem quoted_prefix_lost :
    (prefixed (S "/home/o'neil")).env.find (S "prefix") = some (some (s8pathencode (S "/home/o'neil"))) ∧
      ¬ PrefixRoundTrips .stderr Env.empty (prefixed (S "/home/o'neil")) (S "/home/o'neil") (S "/include") := by
  decide

end GnuWindows.PkgConfig
