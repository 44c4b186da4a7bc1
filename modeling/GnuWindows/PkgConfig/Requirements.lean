/-
  GnuWindows.PkgConfig.Requirements — what a list of requirements asks for.

  A list is read token by token: a package, or an operator and a version for the package
  before it (`items`). Over a table of packages the items of all lists make a graph with
  two kinds of edges, through Requires and through Requires.private; `Reachable` is
  reachability in it.

  Proved: what a table meets, and what is reachable in it, a larger table (`Grows`) does
  too.
-/
import GnuWindows.PkgConfig.Process
import Mathlib.Logic.Relation

namespace GnuWindows.PkgConfig

/-! ## Items -/

def tokens (s : S8) : List S8 :=
  if _h : (nexttoken s).1 = [] then [] else (nexttoken s).1 :: tokens (nexttoken s).2
termination_by s.length
decreasing_by exact nexttoken_tail_lt _h

inductive Item where
  | pkg (tok : S8)
  | constraint (realname : S8) (op : Versop) (version : S8)
  /-- An operator with no package before it. -/
  | unexpected (tok : S8)
  /-- An operator with no version after it. -/
  | dangling (op : Versop)
  deriving DecidableEq

/-- The items of some tokens, after the package `last` (by its real name) and an operator. -/
def items (last : Option S8) (op : Versop) : List S8 → List Item
  | [] => if op = .ERR then [] else [.dangling op]
  | tok :: toks =>
    if op ≠ .ERR then .constraint (last.getD []) op tok :: items none .ERR toks
    else if parseop tok ≠ .ERR then
      match last with
      | none => [.unexpected tok]
      | some _ => items last (parseop tok) toks
    else .pkg tok :: items (some (pathtorealname tok)) .ERR toks

/-- The items of a Requires field. -/
def requirements (field : Option S8) : List Item := items none .ERR (tokens (bytes field))

/-- The items of the arguments, taken as one list. -/
def argitems (args : List S8) : List Item := items none .ERR (args.flatMap tokens)

/-- Some package item has this real name. -/
def Names (l : List Item) (n : S8) : Prop := ∃ tok, Item.pkg tok ∈ l ∧ pathtorealname tok = n

theorem tokens_nil {s : S8} (h : (nexttoken s).1 = []) : tokens s = [] := by rw [tokens, dif_pos h]

theorem tokens_cons {s : S8} (h : (nexttoken s).1 ≠ []) : tokens s = (nexttoken s).1 :: tokens (nexttoken s).2 := by
  rw [tokens, dif_neg h]

theorem items_version {last : Option S8} {op : Versop} (h : op ≠ .ERR) (tok : S8) (toks : List S8) :
    items last op (tok :: toks) = .constraint (last.getD []) op tok :: items none .ERR toks := by
  cases last <;> simp [items, h]

theorem items_operator {tok : S8} (h : parseop tok ≠ .ERR) (n : S8) (toks : List S8) :
    items (some n) .ERR (tok :: toks) = items (some n) (parseop tok) toks := by
  simp [items, h]

theorem items_package {tok : S8} (h : parseop tok = .ERR) (last : Option S8) (toks : List S8) :
    items last .ERR (tok :: toks) = .pkg tok :: items (some (pathtorealname tok)) .ERR toks := by
  cases last <;> simp [items, h]

/-! ## Tables -/

/-- All of `a` is in `b`. -/
def Flags.Le (a b : Flags) : Prop :=
  (a.pkgDirect = true → b.pkgDirect = true) ∧ (a.pkgPublic = true → b.pkgPublic = true)

theorem Flags.Le.refl (a : Flags) : a.Le a := ⟨id, id⟩

theorem Flags.Le.trans {a b c : Flags} (h1 : a.Le b) (h2 : b.Le c) : a.Le c :=
  ⟨fun h => h2.1 (h1.1 h), fun h => h2.2 (h1.2 h)⟩

theorem Flags.le_or_left (a b : Flags) : a.Le (a.or b) :=
  ⟨fun h => by simp [Flags.or, h], fun h => by simp [Flags.or, h]⟩

theorem Flags.le_or_right (a b : Flags) : b.Le (a.or b) :=
  ⟨fun h => by simp [Flags.or, h], fun h => by simp [Flags.or, h]⟩

/-- The same package with, at most, more flags. -/
def Pkg.Le (p q : Pkg) : Prop := q = { p with flags := q.flags } ∧ p.flags.Le q.flags

theorem Pkg.Le.realname {p q : Pkg} (h : p.Le q) : q.realname = p.realname := by rw [h.1]
theorem Pkg.Le.version {p q : Pkg} (h : p.Le q) : q.version = p.version := by rw [h.1]; rfl
theorem Pkg.Le.requires {p q : Pkg} (h : p.Le q) : q.requires = p.requires := by rw [h.1]; rfl
theorem Pkg.Le.requiresprivate {p q : Pkg} (h : p.Le q) : q.requiresprivate = p.requiresprivate := by rw [h.1]; rfl

theorem Pkg.le_addflags (p : Pkg) (flags : Flags) : p.Le (addflags flags p) := ⟨rfl, Flags.le_or_left _ _⟩

/-- Every package stays where it is; flags and packages may be added. -/
def Grows (l l' : List Pkg) : Prop := ∀ (i : Nat) (p : Pkg), l[i]? = some p → ∃ q, l'[i]? = some q ∧ p.Le q

theorem Grows.mem {l l' : List Pkg} (h : Grows l l') {p : Pkg} (hp : p ∈ l) : ∃ q ∈ l', p.Le q := by
  obtain ⟨i, hi⟩ := List.mem_iff_getElem?.mp hp
  obtain ⟨q, hq, hle⟩ := h i p hi
  exact ⟨q, List.mem_of_getElem? hq, hle⟩

theorem Grows.length_le {l l' : List Pkg} (h : Grows l l') : l.length ≤ l'.length := by
  cases hn : l.length with
  | zero => exact Nat.zero_le _
  | succ n =>
    have hlast : n < l.length := by omega
    obtain ⟨q, hq, -⟩ := h n l[n] (List.getElem?_eq_getElem hlast)
    exact (List.getElem?_eq_some_iff.mp hq).1

theorem Grows.take {l l' : List Pkg} (h : Grows l l') (n : Nat) : Grows (l.take n) (l'.take n) := by
  intro i p hp
  rw [List.getElem?_take] at hp
  split at hp
  · rename_i hi
    obtain ⟨q, hq, hle⟩ := h i p hp
    exact ⟨q, by rw [List.getElem?_take, if_pos hi]; exact hq, hle⟩
  · cases hp

theorem grows_append (l ext : List Pkg) : Grows l (l ++ ext) := by
  intro i p h
  have hi := (List.getElem?_eq_some_iff.mp h).1
  exact ⟨p, by rw [List.getElem?_append_left hi, h], rfl, Flags.Le.refl _⟩

theorem grows_addflags (l : List Pkg) (i : Nat) (flags : Flags) : Grows l (l.modify i (addflags flags)) := by
  intro j p h
  rw [List.getElem?_modify, h]
  by_cases hij : i = j
  · exact ⟨addflags flags p, by simp [hij], p.le_addflags flags⟩
  · exact ⟨p, by simp [hij], rfl, Flags.Le.refl _⟩

/-! ## Reachability -/

/-- The arguments or a package of the table ask for this token. -/
def Asked (l : List Pkg) (roots : List Item) (tok : S8) : Prop :=
  Item.pkg tok ∈ roots ∨ ∃ p ∈ l, Item.pkg tok ∈ requirements p.requires ∨ Item.pkg tok ∈ requirements p.requiresprivate

theorem Asked.grows {l l' : List Pkg} (h : Grows l l') {roots : List Item} {tok : S8} (ha : Asked l roots tok) :
    Asked l' roots tok := by
  rcases ha with ha | ⟨p, hp, ha⟩
  · exact Or.inl ha
  · obtain ⟨q, hq, hle⟩ := h.mem hp
    exact Or.inr ⟨q, hq, by rw [hle.requires, hle.requiresprivate]; exact ha⟩

/-- `m` is listed by the package `n`: in Requires, or in Requires.private when `priv`. -/
def Lists (l : List Pkg) (priv : Bool) (n m : S8) : Prop :=
  ∃ p ∈ l, p.realname = n ∧
    (Names (requirements p.requires) m ∨ (priv = true ∧ Names (requirements p.requiresprivate) m))

/-- Reachable from the packages that `roots` names. -/
def Reachable (l : List Pkg) (roots : List Item) (priv : Bool) (n : S8) : Prop :=
  ∃ r, Names roots r ∧ Relation.ReflTransGen (Lists l priv) r n

theorem Lists.grows {l l' : List Pkg} (h : Grows l l') {priv : Bool} {n m : S8} (hl : Lists l priv n m) :
    Lists l' priv n m := by
  obtain ⟨p, hp, hn, hm⟩ := hl
  obtain ⟨q, hq, hle⟩ := h.mem hp
  exact ⟨q, hq, hle.realname.trans hn, by rw [hle.requires, hle.requiresprivate]; exact hm⟩

theorem Reachable.grows {l l' : List Pkg} (h : Grows l l') {roots : List Item} {priv : Bool} {n : S8}
    (hr : Reachable l roots priv n) : Reachable l' roots priv n := by
  obtain ⟨r, hroot, hr⟩ := hr
  exact ⟨r, hroot, Relation.ReflTransGen.mono (fun _ _ => Lists.grows h) _ _ hr⟩

theorem Reachable.step {l : List Pkg} {roots : List Item} {priv : Bool} {n m : S8} (hr : Reachable l roots priv n)
    (hl : Lists l priv n m) : Reachable l roots priv m := by
  obtain ⟨r, hroot, hr⟩ := hr
  exact ⟨r, hroot, hr.tail hl⟩

/-- A set with the roots that the edges do not leave has all that is reachable. -/
theorem Reachable.closed {l : List Pkg} {roots : List Item} {priv : Bool} {C : S8 → Prop} {n : S8}
    (hr : Reachable l roots priv n) (hroot : ∀ r, Names roots r → C r)
    (hstep : ∀ n m, C n → Lists l priv n m → C m) : C n := by
  obtain ⟨r, hr, hrn⟩ := hr
  induction hrn with
  | refl => exact hroot r hr
  | tail _ hl ih => exact hstep _ _ ih hl

/-! ## Met items -/

/-- A package item: loaded with these flags at least. A constraint: satisfied, unless
    versions are ignored. -/
def Met (l : List Pkg) (ignore : Bool) (flags : Flags) : Item → Prop
  | .pkg tok => ∃ p ∈ l, p.realname = pathtorealname tok ∧ flags.Le p.flags
  | .constraint n op v => ignore = false →
      ∃ p ∈ l, p.realname = n ∧ validcompare op (compareversions (bytes p.version) v) = true
  | .unexpected _ => False
  | .dangling _ => False

theorem Met.grows {l l' : List Pkg} (h : Grows l l') {ignore : Bool} {flags : Flags} {item : Item}
    (hm : Met l ignore flags item) : Met l' ignore flags item := by
  cases item with
  | pkg tok =>
    obtain ⟨p, hp, hn, hf⟩ := hm
    obtain ⟨q, hq, hle⟩ := h.mem hp
    exact ⟨q, hq, hle.realname.trans hn, hf.trans hle.2⟩
  | constraint n op v =>
    intro hi
    obtain ⟨p, hp, hn, hv⟩ := hm hi
    obtain ⟨q, hq, hle⟩ := h.mem hp
    exact ⟨q, hq, hle.realname.trans hn, by rw [hle.version]; exact hv⟩
  | unexpected tok => exact hm
  | dangling op => exact hm

theorem Met.weaken {l : List Pkg} {ignore : Bool} {a b : Flags} (h : a.Le b) {item : Item} (hm : Met l ignore b item) :
    Met l ignore a item := by
  cases item with
  | pkg tok =>
    obtain ⟨p, hp, hn, hf⟩ := hm
    exact ⟨p, hp, hn, h.trans hf⟩
  | constraint n op v => exact hm
  | unexpected tok => exact hm
  | dangling op => exact hm

end GnuWindows.PkgConfig
