/-
  GnuWindows.PkgConfig.ParseErrors — which files `parsepackage` refuses, and what it binds.

  A variable and a known field are keys (`Key`); an entry of a file has one or, as an
  unknown field, none. A key is there from its first value on, also when that is empty.

  Proved:
  - `assign_unset`: entries whose keys are new are stored.
  - `first_repeat`: a list of entries without different keys has an earliest entry that
    repeats one.
  - `parsepackage_outcome`: a file is refused exactly when a key is repeated, for the
    earliest repetition; else the package has the keys that occur, and no others.
-/
import GnuWindows.PkgConfig.ParseProofs
import Mathlib.Data.List.Basic
import Mathlib.Data.List.Induction

namespace GnuWindows.PkgConfig

/-! ## Keys -/

inductive Key where
  | variable_ (name : S8)
  | field (i : Fin 10)
  deriving DecidableEq

namespace Entry

/-- None for an unknown field. -/
def key (e : Entry) : Option Key :=
  if e.delim == 0x3d then some (.variable_ e.name) else (fieldbyname e.name).map .field

/-- The value that is stored. -/
def value (e : Entry) : S8 := (scanfield e.body).2

/-- The failure when the entry's key is there. -/
def dup (e : Entry) : Parseresult := if e.delim == 0x3d then .dupvariable e.name else .dupfield e.name

end Entry

def keys (es : List Entry) : List Key := es.filterMap Entry.key

/-- What a package has for a key: nothing, or a value that may be null. -/
def Pkg.get (pkg : Pkg) : Key → Option (Option S8)
  | .variable_ name => pkg.env.find name
  | .field i => (pkg.field i).map some

def Pkg.put (pkg : Pkg) (k : Key) (value : S8) : Pkg :=
  match k with
  | .variable_ name => { pkg with env := pkg.env.bind name (some value) }
  | .field i => pkg.setField i (some value)

theorem Pkg.get_put (pkg : Pkg) (k k' : Key) (value : S8) :
    (pkg.put k value).get k' = if k' = k then some (some value) else pkg.get k' := by
  cases k with
  | variable_ name =>
    cases k' with
    | variable_ name' =>
      simp only [put, get, Env.find_bind, Key.variable_.injEq]
    | field i => simp [put, get]
  | field i =>
    cases k' with
    | variable_ name => simp [put, get, setField]
    | field j =>
      simp only [put, get, setField, Key.field.injEq]
      split <;> rfl

/-- The package once the entries are stored. -/
def Pkg.puts (pkg : Pkg) (es : List Entry) : Pkg :=
  es.foldl (fun pkg e => e.key.elim pkg fun k => pkg.put k e.value) pkg

/-! ## One entry -/

theorem assign_unknown {pkg : Pkg} {e : Entry} (es : List Entry) (h : e.key = none) :
    assign pkg (e :: es) = assign pkg es := by
  unfold Entry.key at h
  split at h
  · cases h
  · rw [assign, if_neg ‹_›, Option.map_eq_none_iff.mp h]

theorem assign_put {pkg : Pkg} {e : Entry} {k : Key} (es : List Entry) (h : e.key = some k) (hnew : pkg.get k = none) :
    assign pkg (e :: es) = assign (pkg.put k e.value) es := by
  unfold Entry.key at h
  split at h
  · cases h
    have hfind : pkg.env.find e.name = none := hnew
    rw [assign, if_pos ‹_›, hfind]
    rfl
  · obtain ⟨i, hi, rfl⟩ := Option.map_eq_some_iff.mp h
    have hfield : pkg.field i = none := Option.map_eq_none_iff.mp hnew
    rw [assign, if_neg ‹_›, hi]
    simp only [hfield]
    rfl

theorem assign_dup {pkg : Pkg} {e : Entry} {k : Key} (es : List Entry) (h : e.key = some k) {value : S8}
    (hold : pkg.get k = some (some value)) : assign pkg (e :: es) = e.dup := by
  unfold Entry.key at h
  split at h
  · cases h
    have hfind : pkg.env.find e.name = some (some value) := hold
    rw [assign, if_pos ‹_›, hfind, Entry.dup, if_pos ‹_›]
  · obtain ⟨i, hi, rfl⟩ := Option.map_eq_some_iff.mp h
    obtain ⟨v, hv, -⟩ := Option.map_eq_some_iff.mp hold
    rw [assign, if_neg ‹_›, hi, Entry.dup, if_neg ‹_›]
    simp only [hv]
    rfl

/-! ## Entries with new keys -/

theorem keys_cons_some {e : Entry} {k : Key} (es : List Entry) (h : e.key = some k) : keys (e :: es) = k :: keys es :=
  List.filterMap_cons_some h

theorem keys_cons_none {e : Entry} (es : List Entry) (h : e.key = none) : keys (e :: es) = keys es :=
  List.filterMap_cons_none h

theorem mem_keys {es : List Entry} {k : Key} : k ∈ keys es ↔ ∃ e ∈ es, e.key = some k := List.mem_filterMap

/-- The keys are different, and the package has none of them. -/
structure Unset (pkg : Pkg) (es : List Entry) : Prop where
  nodup : (keys es).Nodup
  new : ∀ k ∈ keys es, pkg.get k = none

theorem Unset.cons {pkg : Pkg} {e : Entry} {k : Key} {es : List Entry} (h : Unset pkg (e :: es)) (hk : e.key = some k) :
    pkg.get k = none ∧ k ∉ keys es ∧ Unset (pkg.put k e.value) es := by
  obtain ⟨hnodup, hnew⟩ := h
  rw [keys_cons_some es hk] at hnodup hnew
  obtain ⟨hnot, hnodup⟩ := List.nodup_cons.mp hnodup
  refine ⟨hnew k List.mem_cons_self, hnot, hnodup, fun k' hk' => ?_⟩
  have hne : k' ≠ k := by
    rintro rfl
    exact hnot hk'
  rw [Pkg.get_put, if_neg hne]
  exact hnew k' (List.mem_cons_of_mem _ hk')

theorem Unset.cons_none {pkg : Pkg} {e : Entry} {es : List Entry} (h : Unset pkg (e :: es)) (hk : e.key = none) :
    Unset pkg es := by
  obtain ⟨hnodup, hnew⟩ := h
  rw [keys_cons_none es hk] at hnodup hnew
  exact ⟨hnodup, hnew⟩

/-- Entries whose keys are new are stored. -/
theorem assign_unset {pkg : Pkg} {es : List Entry} (h : Unset pkg es) (rest : List Entry) :
    assign pkg (es ++ rest) = assign (pkg.puts es) rest := by
  induction es generalizing pkg with
  | nil => rfl
  | cons e es ih =>
    cases hk : e.key with
    | none =>
      rw [List.cons_append, assign_unknown _ hk, ih (h.cons_none hk), Pkg.puts, Pkg.puts, List.foldl_cons, hk]
      rfl
    | some k =>
      obtain ⟨hnew, -, hunset⟩ := h.cons hk
      rw [List.cons_append, assign_put _ hk hnew, ih hunset, Pkg.puts, Pkg.puts, List.foldl_cons, hk]
      rfl

theorem get_puts_notMem (pkg : Pkg) {es : List Entry} {k : Key} (h : k ∉ keys es) :
    (pkg.puts es).get k = pkg.get k := by
  induction es generalizing pkg with
  | nil => rfl
  | cons e es ih =>
    rw [Pkg.puts, List.foldl_cons, ← Pkg.puts]
    cases hk : e.key with
    | none =>
      rw [keys_cons_none es hk] at h
      exact ih pkg h
    | some k' =>
      rw [keys_cons_some es hk, List.mem_cons, not_or] at h
      rw [ih _ h.2]
      show (pkg.put k' e.value).get k = _
      rw [Pkg.get_put, if_neg h.1]

/-- Each key has the value of its entry. -/
theorem get_puts_mem {pkg : Pkg} {es : List Entry} (h : Unset pkg es) {e : Entry} (he : e ∈ es) {k : Key}
    (hk : e.key = some k) : (pkg.puts es).get k = some (some e.value) := by
  induction es generalizing pkg with
  | nil => cases he
  | cons e' es ih =>
    rw [Pkg.puts, List.foldl_cons, ← Pkg.puts]
    cases hk' : e'.key with
    | none =>
      rcases List.mem_cons.mp he with rfl | he
      · rw [hk] at hk'; cases hk'
      · exact ih (h.cons_none hk') he
    | some k' =>
      obtain ⟨-, hnot, hunset⟩ := h.cons hk'
      rcases List.mem_cons.mp he with rfl | he
      · rw [hk] at hk'
        cases hk'
        show ((pkg.put k e.value).puts es).get k = _
        rw [get_puts_notMem _ hnot, Pkg.get_put, if_pos rfl]
      · exact ih hunset he

/-! ## The earliest repetition -/

/-- `e` is the first entry with a key of those before it. -/
def Earliest (es pre : List Entry) (e : Entry) : Prop :=
  ∃ post, es = pre ++ e :: post ∧ (keys pre).Nodup ∧ ∃ k, e.key = some k ∧ k ∈ keys pre

theorem first_repeat (es : List Entry) : (keys es).Nodup ∨ ∃ pre e, Earliest es pre e := by
  induction es using List.reverseRecOn with
  | nil => exact .inl List.nodup_nil
  | append_singleton es e ih =>
    rcases ih with hnodup | ⟨pre, e', post, rfl, hpre⟩
    · cases hk : e.key with
      | none =>
        left
        rw [keys, List.filterMap_append, List.filterMap_cons_none hk, List.filterMap_nil, List.append_nil]
        exact hnodup
      | some k =>
        by_cases hm : k ∈ keys es
        · exact .inr ⟨es, e, [], rfl, hnodup, k, hk, hm⟩
        · left
          rw [keys, List.filterMap_append, List.filterMap_cons_some hk, List.filterMap_nil]
          exact List.nodup_append.mpr ⟨hnodup, List.pairwise_singleton _ k, fun a ha b hb hab =>
            hm (List.mem_singleton.mp hb ▸ hab ▸ ha)⟩
    · exact .inr ⟨pre, e', post ++ [e], by simp, hpre⟩

/-! ## The outcome -/

theorem unset_zero {src : S8} {es : List Entry} (h : (keys es).Nodup) :
    Unset { Pkg.zero with contents := some src } es := by
  refine ⟨h, fun k _ => ?_⟩
  cases k <;> rfl

theorem parsepackage_unset {src : S8} (h : (keys (entries src)).Nodup) :
    parsepackage src = .ok (Pkg.puts { Pkg.zero with contents := some src } (entries src)) := by
  have hunset : Unset { Pkg.zero with contents := some src } (entries src) := unset_zero h
  have hassign := assign_unset hunset []
  rw [List.append_nil] at hassign
  rw [parsepackage_entries, hassign]
  rfl

theorem parsepackage_earliest {src : S8} {pre : List Entry} {e : Entry} (h : Earliest (entries src) pre e) :
    parsepackage src = e.dup := by
  obtain ⟨post, hes, hnodup, k, hk, hm⟩ := h
  obtain ⟨e', he', hk'⟩ := mem_keys.mp hm
  have hunset : Unset { Pkg.zero with contents := some src } pre := unset_zero hnodup
  rw [parsepackage_entries, hes, assign_unset hunset]
  exact assign_dup post hk (get_puts_mem hunset he' hk')

theorem dup_ne_ok (e : Entry) (pkg : Pkg) : e.dup ≠ .ok pkg := by
  unfold Entry.dup
  split
  · intro h; cases h
  · intro h; cases h

theorem parsepackage_ok_iff {src : S8} : (∃ pkg, parsepackage src = .ok pkg) ↔ (keys (entries src)).Nodup := by
  constructor
  · rintro ⟨pkg, hpkg⟩
    rcases first_repeat (entries src) with h | ⟨pre, e, h⟩
    · exact h
    · rw [parsepackage_earliest h] at hpkg
      exact absurd hpkg (dup_ne_ok e pkg)
  · exact fun h => ⟨_, parsepackage_unset h⟩

/-- What the parser does with the rest of a file depends on its entries only. -/
theorem parseloop_congr {p q : S8} (h : entries p = entries q) (pkg : Pkg) : parseloop pkg p = parseloop pkg q := by
  rw [parseloop_entries, parseloop_entries, h]

/-- An unknown field is scanned, and nothing is stored. -/
theorem parseloop_unknown {blank name : S8} (hb : ∀ c ∈ blank, whitespace c = true) (h : ∀ c ∈ name, namebyte c = true)
    (hhead : ∀ c ∈ name.head?, whitespace c = false ∧ c ≠ 0x23)
    (hunknown : fieldbyname (name.rdropWhile whitespace) = none) (body : S8) (pkg : Pkg) :
    parseloop pkg (blank ++ name ++ 0x3a :: body) = parseloop pkg (nextline (reftext [] body).2) := by
  rw [parseloop_entries, parseloop_entries, entries_named hb h hhead (.inr rfl)]
  apply assign_unknown
  rw [Entry.key, if_neg (show ¬ ((0x3a : UInt8) == 0x3d) = true by decide), hunknown]
  rfl

/-- For every file: the parser fails exactly when a variable or a known field has a second
    entry, whatever the value of the first one, and reports the earliest such entry, its name
    and its kind. Otherwise each variable and known field with an entry is bound, to that
    entry's value, and no other is. Comments, lines without a delimiter and unknown fields
    change nothing, wherever they are. -/
theorem parsepackage_outcome (src : S8) :
    (∀ es, Assignments src es ↔ es = entries src) ∧
    ((∃ pkg, parsepackage src = .ok pkg) ↔ (keys (entries src)).Nodup) ∧
    (¬ (keys (entries src)).Nodup → ∃ pre e, Earliest (entries src) pre e) ∧
    (∀ pre e, Earliest (entries src) pre e → parsepackage src = e.dup) ∧
    (∀ pkg, parsepackage src = .ok pkg →
      (∀ e ∈ entries src, ∀ k, e.key = some k → pkg.get k = some (some e.value)) ∧
        ∀ k, k ∉ keys (entries src) → pkg.get k = none) ∧
    (∀ pkg blank text rest, (∀ c ∈ blank, whitespace c = true) → 0x0a ∉ text → Lineend rest →
      parseloop pkg (blank ++ 0x23 :: text ++ rest) = parseloop pkg rest) ∧
    (∀ pkg line rest, (∀ c ∈ line, namebyte c = true) → Lineend rest →
      parseloop pkg (line ++ rest) = parseloop pkg rest) ∧
    ∀ pkg blank name body, (∀ c ∈ blank, whitespace c = true) → (∀ c ∈ name, namebyte c = true) →
      (∀ c ∈ name.head?, whitespace c = false ∧ c ≠ 0x23) → fieldbyname (name.rdropWhile whitespace) = none →
      parseloop pkg (blank ++ name ++ 0x3a :: body) = parseloop pkg (nextline (reftext [] body).2) := by
  refine ⟨fun _ => assignments_iff, parsepackage_ok_iff, fun h => (first_repeat _).resolve_left h,
    fun _ _ => parsepackage_earliest, ?_,
    fun pkg _ _ _ hb ht hr => parseloop_congr (entries_comment hb ht hr) pkg,
    fun pkg _ _ h hr => parseloop_congr (entries_nodelim h hr) pkg,
    fun pkg _ _ body hb h hhead hunknown => parseloop_unknown hb h hhead hunknown body pkg⟩
  intro pkg hpkg
  have hnodup := parsepackage_ok_iff.mp ⟨pkg, hpkg⟩
  rw [parsepackage_unset hnodup] at hpkg
  cases hpkg
  refine ⟨fun e he k hk => get_puts_mem (unset_zero hnodup) he hk, fun k hk => ?_⟩
  rw [get_puts_notMem _ hk]
  cases k <;> rfl

end GnuWindows.PkgConfig
