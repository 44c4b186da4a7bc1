/-
  GnuWindows.PkgConfig.ExpandProofs — `expand` is recursive substitution.

  `subst look levels` evaluates a string depth first, left to right, with references
  nested at most `levels` deep: `$$` is a dollar, `${name}` the evaluation of the value of
  `name` one level down, any other byte itself. It stops at the first unbound name or
  the first reference below the last level.

  Proved:
  - `expand_refines_subst`: `expand` writes what `subst` at 127 levels gives, up to the
    same stop, with the matching message; and where it does not stop, more levels would
    have given the same text.
  - The simulation (`run_stack`): a slice at height `k` of the stack has 127 - k levels
    left, and what the machine still writes is the evaluation of its slices, top first.
-/
import GnuWindows.PkgConfig.Expand

namespace GnuWindows.PkgConfig

open GnuWindows.Lib.BoundedStack

/-! ## Recursive substitution -/

inductive SubstStop where
  | undefined (name : S8)
  | recursion
  deriving DecidableEq

/-- The text so far, and why it stopped. -/
abbrev Subst := S8 × Option SubstStop

/-- `b` after `a`, unless `a` stopped. -/
def Subst.andThen (a b : Subst) : Subst :=
  match a.2 with
  | some e => (a.1, some e)
  | none => (a.1 ++ b.1, b.2)

/-- One string, with `deeper` for the references in it. -/
def substAt (deeper : S8 → Subst) : S8 → Subst
  | c :: d :: t =>
    if c = 0x24 ∧ d = 0x7b then (deeper (refname t)).andThen (substAt deeper (reftail t))
    else if c = 0x24 ∧ d = 0x24 then Subst.andThen ([0x24], none) (substAt deeper t)
    else Subst.andThen ([c], none) (substAt deeper (d :: t))
  | s => (s, none)
termination_by s => s.length
decreasing_by
  · have := reftail_lt t; simp only [List.length_cons]; omega
  · simp only [List.length_cons]; omega
  · simp only [List.length_cons]; omega

/-- What a reference evaluates to, with `below` for its value. -/
def substRef (look : S8 → Option S8) (below : S8 → Subst) (name : S8) : Subst :=
  match look name with
  | none => ([], some (.undefined name))
  | some value => below value

def subst (look : S8 → Option S8) : Nat → S8 → Subst
  | 0 => substAt fun _ => ([], some .recursion)
  | levels + 1 => substAt (substRef look (subst look levels))

/-- The value of a name: what the global environment binds it to, if it binds it, else
    what the package's does. -/
def binding (global env : Env) (name : S8) : Option S8 := ((global.find name).or (env.find name)).join

def SubstStop.fail (err : Errbuf) (p : Pkg) : SubstStop → Fail
  | .undefined name => failundefined err p name
  | .recursion => failrecursion err p

theorem lookup_eq_binding (global env : Env) : lookup global env = binding global env := by
  funext name
  unfold lookup binding
  cases global.find name <;> cases env.find name <;> rfl

/-! ## Basics -/

@[simp] theorem andThen_text (head : S8) (b : Subst) : Subst.andThen (head, none) b = (head ++ b.1, b.2) := rfl

@[simp] theorem andThen_stop (head : S8) (e : SubstStop) (b : Subst) :
    Subst.andThen (head, some e) b = (head, some e) := rfl

theorem andThen_assoc (a b c : Subst) : (a.andThen b).andThen c = a.andThen (b.andThen c) := by
  obtain ⟨a, ea⟩ := a
  obtain ⟨b, eb⟩ := b
  cases ea <;> cases eb <;> simp [Subst.andThen]

/-- A string is the bytes before its first `${` or `$$`, and that one. -/
theorem substAt_finddollar (deeper : S8 → Subst) (s : S8) :
    substAt deeper s =
      match finddollar s with
      | none => (s, none)
      | some (head, true, t) => Subst.andThen (head, none) ((deeper (refname t)).andThen (substAt deeper (reftail t)))
      | some (head, false, t) => Subst.andThen (head ++ [0x24], none) (substAt deeper t) := by
  induction s using finddollar.induct with
  | case1 c d t hc =>
    have hc' : c = 0x24 ∧ d = 0x7b := by simpa using hc
    simp [finddollar, substAt, hc']
  | case2 c d t h1 hc =>
    have hc' : c = 0x24 ∧ d = 0x24 := by simpa using hc
    simp [finddollar, substAt, hc']
  | case3 c d t h1 h2 ih =>
    have h1' : ¬ (c = 0x24 ∧ d = 0x7b) := by simpa using h1
    have h2' : ¬ (c = 0x24 ∧ d = 0x24) := by simpa using h2
    rw [substAt, if_neg h1', if_neg h2', ih, finddollar, if_neg h1, if_neg h2]
    cases finddollar (d :: t) with
    | none => rfl
    | some r =>
      obtain ⟨head, b, t'⟩ := r
      cases b <;> simp
  | case4 s hs =>
    have hf : finddollar s = none := by
      unfold finddollar
      split
      · exact absurd rfl (hs _ _ _)
      · rfl
    rw [hf]
    unfold substAt
    split
    · exact absurd rfl (hs _ _ _)
    · rfl

/-! ## The simulation -/

/-- What the pending slices evaluate to, top first: the one over `rest` has
    `127 - rest.length` levels left. -/
def substStack (look : S8 → Option S8) : List S8 → Subst
  | [] => ([], none)
  | s :: rest => (subst look (127 - rest.length) s).andThen (substStack look rest)

variable (err : Errbuf) (global : Env) (p : Pkg)

/-- What a run has to show for an evaluation: the message of its stop, and its text. A run
    that fails may have written less: at the last level the bytes before the reference
    are not copied. -/
structure Reports (r : Subst) (e : Expanded) : Prop where
  fail : e.fail = r.2.map (SubstStop.fail err p)
  out : r.2 = none → e.out = r.1
  pre : e.out <+: r.1

/-- One turn of the loop keeps what was written and what is still to be evaluated. -/
theorem step_stack {st st' : ExpandState} (h : expandStep err global p st = .go st') :
    Subst.andThen (st'.out, none) (substStack (lookup global p.env) st'.stack) =
      Subst.andThen (st.out, none) (substStack (lookup global p.env) st.stack) := by
  obtain ⟨stack, out⟩ := st
  cases stack with
  | nil => simp [expandStep] at h
  | cons s rest =>
    simp only [expandStep] at h
    -- the evaluation of `s` splits where the loop does
    have hs : ∀ deeper, substAt deeper s = _ := fun deeper => substAt_finddollar deeper s
    split at h
    · rename_i hd
      simp only [Next.go.injEq] at h
      subst h
      have : subst (lookup global p.env) (127 - rest.length) s = (s, none) := by
        cases 127 - rest.length <;> simp [subst, hs, hd]
      simp [substStack, this]
    · rename_i head t hd
      split at h
      · cases h
      · rename_i hlen
        split at h
        · cases h
        · rename_i value hv
          simp only [Next.go.injEq] at h
          subst h
          obtain ⟨n, hn⟩ : ∃ n, 127 - rest.length = n + 1 := ⟨126 - rest.length, by omega⟩
          have hn' : 127 - (reftail t :: rest).length = n := by rw [List.length_cons]; omega
          have hv' : substRef (lookup global p.env) (subst (lookup global p.env) n) (refname t) =
              subst (lookup global p.env) n value := by simp [substRef, hv]
          have e : subst (lookup global p.env) (127 - rest.length) s = Subst.andThen (head, none)
              ((subst (lookup global p.env) n value).andThen
                (subst (lookup global p.env) (127 - rest.length) (reftail t))) := by
            rw [hn]
            conv => lhs; rw [subst, hs, hd]
            simp only [hv', subst]
          rw [substStack, substStack, hn', substStack, e, andThen_assoc, andThen_assoc]
          simp
    · rename_i head t hd
      simp only [Next.go.injEq] at h
      subst h
      have e : subst (lookup global p.env) (127 - rest.length) s =
          Subst.andThen (head ++ [0x24], none) (subst (lookup global p.env) (127 - rest.length) t) := by
        cases 127 - rest.length <;> simp [subst, hs, hd]
      rw [substStack, substStack, e, andThen_assoc]
      simp

/-- Where the loop stops, it has shown the evaluation. -/
theorem stop_stack {st : ExpandState} {r : Expanded} (h : expandStep err global p st = .stop r) :
    Reports err p (Subst.andThen (st.out, none) (substStack (lookup global p.env) st.stack)) r := by
  obtain ⟨stack, out⟩ := st
  cases stack with
  | nil =>
    simp only [expandStep, Next.stop.injEq] at h
    subst h
    exact ⟨rfl, fun _ => by simp [substStack], by simp [substStack]⟩
  | cons s rest =>
    simp only [expandStep] at h
    have hs : ∀ deeper, substAt deeper s = _ := fun deeper => substAt_finddollar deeper s
    split at h
    · cases h
    · rename_i head t hd
      split at h
      · rename_i hlen
        simp only [Next.stop.injEq] at h
        subst h
        have e : 127 - rest.length = 0 := by omega
        rw [substStack, e, subst, hs, hd]
        exact ⟨by simp [SubstStop.fail], fun hn => by simp at hn, by simp⟩
      · split at h
        · rename_i hlen hv
          simp only [Next.stop.injEq] at h
          subst h
          obtain ⟨n, hn⟩ : ∃ n, 127 - rest.length = n + 1 := ⟨126 - rest.length, by omega⟩
          rw [substStack, hn, subst, hs, hd]
          exact ⟨by simp [substRef, hv, SubstStop.fail], fun hn => by simp [substRef, hv] at hn, by simp [substRef, hv]⟩
        · cases h
    · cases h

/-- From any stack, the run shows the evaluation of the stack. -/
theorem run_stack (st : ExpandState) :
    Reports err p (Subst.andThen (st.out, none) (substStack (lookup global p.env) st.stack))
      ((expandMachine err global p).run st) := by
  refine (expandMachine err global p).run_induction
    (C := fun st => Reports err p (Subst.andThen (st.out, none) (substStack (lookup global p.env) st.stack))
      ((expandMachine err global p).run st)) ?_ ?_ st
  · intro st r h
    rw [(expandMachine err global p).run_stop h]
    exact stop_stack err global p h
  · intro st st' h ih
    rw [(expandMachine err global p).run_go h, ← step_stack err global p h]
    exact ih

theorem expand_reports (str : S8) : Reports err p (subst (lookup global p.env) 127 str) (expand err global p str) := by
  have h := run_stack err global p ⟨[str], []⟩
  rw [← expand_run] at h
  have e : Subst.andThen ([], none) (substStack (lookup global p.env) [str]) = subst (lookup global p.env) 127 str := by
    cases he : (subst (lookup global p.env) 127 str).2 <;>
      simp [substStack, Subst.andThen, he, Prod.ext_iff]
  rwa [e] at h

/-! ## The limit does not shape the text -/

theorem substAt_mono {deeper deeper' : S8 → Subst} (h : ∀ n, (deeper n).2 = none → deeper' n = deeper n) (s : S8)
    (hs : (substAt deeper s).2 = none) : substAt deeper' s = substAt deeper s := by
  induction s using substAt.induct with
  | case1 c d t hc ih =>
    rw [substAt, if_pos hc] at hs ⊢
    have e : ∀ x, substAt x (c :: d :: t) = (x (refname t)).andThen (substAt x (reftail t)) := by
      intro x
      rw [substAt, if_pos hc]
    rw [e]
    cases hd : (deeper (refname t)).2 with
    | some _ => simp [Subst.andThen, hd] at hs
    | none =>
      rw [h _ hd, ih (by simpa [Subst.andThen, hd] using hs)]
  | case2 c d t h1 hc ih =>
    have e : ∀ x, substAt x (c :: d :: t) = Subst.andThen ([0x24], none) (substAt x t) := by
      intro x
      rw [substAt, if_neg h1, if_pos hc]
    rw [e] at hs
    rw [e, e, ih hs]
  | case3 c d t h1 h2 ih =>
    have e : ∀ x, substAt x (c :: d :: t) = Subst.andThen ([c], none) (substAt x (d :: t)) := by
      intro x
      rw [substAt, if_neg h1, if_neg h2]
    rw [e] at hs
    rw [e, e, ih hs]
  | case4 s hn =>
    have e : ∀ x : S8 → Subst, substAt x s = (s, none) := by
      intro x
      unfold substAt
      split
      · exact absurd rfl (hn _ _ _)
      · rfl
    rw [e, e]

theorem subst_succ {look : S8 → Option S8} : ∀ {n : Nat} {s : S8}, (subst look n s).2 = none →
    subst look (n + 1) s = subst look n s := by
  intro n
  induction n with
  | zero =>
    intro s hs
    exact substAt_mono (fun _ h => by simp at h) s hs
  | succ n ih =>
    intro s hs
    refine substAt_mono (?_) s hs
    intro name h
    unfold substRef at h ⊢
    split
    · rfl
    · rename_i value hv
      rw [hv] at h
      exact ih h

theorem subst_levels {look : S8 → Option S8} {n : Nat} {s : S8} (hs : (subst look n s).2 = none) (k : Nat) :
    subst look (n + k) s = subst look n s := by
  induction k with
  | zero => rfl
  | succ k ih => rw [← Nat.add_assoc, subst_succ (by rw [ih]; exact hs), ih]

/-- `expand` is recursive substitution with at most 127 levels of references. It fails
    where the evaluation stops, with that stop's message; otherwise it writes the
    evaluation, which no larger limit would change. -/
theorem expand_refines_subst (str : S8) :
    (expand err global p str).fail = (subst (binding global p.env) 127 str).2.map (SubstStop.fail err p) ∧
      ((subst (binding global p.env) 127 str).2 = none →
        (expand err global p str).out = (subst (binding global p.env) 127 str).1 ∧
          ∀ k, subst (binding global p.env) (127 + k) str = subst (binding global p.env) 127 str) := by
  have h := expand_reports err global p str
  rw [lookup_eq_binding] at h
  exact ⟨h.fail, fun hn => ⟨h.out hn, subst_levels hn⟩⟩

end GnuWindows.PkgConfig
