/-
  GnuWindows.PkgConfig.Parse — the package file parser (`parsepackage`).

  A pointer `p` into the source is the list of bytes from it to the end `e`: `p < e` says
  it is not empty, `*p++` takes its head. A pointer kept behind, as `end`, is the longer
  list it was; `span` is the slice between two of them.
-/
import GnuWindows.PkgConfig.Package

namespace GnuWindows.PkgConfig

/-- `s8span`: the bytes from `beg` up to `fin`. -/
def span (beg fin : S8) : S8 := beg.take (beg.length - fin.length)

/-! ## Escapes -/

/-- The number of escape bytes at the beginning: backslash newline, or backslash return
    newline. -/
def escaped (s : S8) : Nat :=
  if startswith s [0x5c, 0x0a] then 2
  else if startswith s [0x5c, 0x0d, 0x0a] then 3
  else 0

def stripescapes : S8 → S8
  | [] => []
  | b :: t =>
    if b == 0x5c then
      let r := escaped (b :: t)
      if r ≠ 0 then stripescapes ((b :: t).drop r)
      else if t.head? == some 0x23 then stripescapes t  -- do not store escape
      else b :: stripescapes t
    else b :: stripescapes t
termination_by s => s.length
decreasing_by all_goals simp only [List.length_drop, List.length_cons]; omega

/-! ## The scans of one line -/

def skipspace (p : S8) : S8 := p.dropWhile whitespace

/-- Up to and past the next newline. -/
def skipline : S8 → S8
  | [] => []
  | c :: p => if c == 0x0a then p else skipline p

/-- The name's scan: the last byte read, where it stopped and where the name ends. -/
def scanname : S8 → S8 → UInt8 → UInt8 × S8 × S8
  | [], fin, c => (c, [], fin)
  | c :: p, fin, _ =>
    if c == 0x0a || c == 0x3d || c == 0x3a then (c, p, fin)
    else scanname p (if whitespace c then fin else p) c

/-- Leading space; newlines may be escaped with a backslash. -/
def skiplead : S8 → S8
  | [] => []
  | c :: p =>
    if c == 0x5c then
      let r := escaped (c :: p)
      if r ≠ 0 then skiplead ((c :: p).drop r) else c :: p
    else if c == 0x0a || !whitespace c then c :: p
    else skiplead p
termination_by s => s.length
decreasing_by all_goals simp only [List.length_drop, List.length_cons]; omega

/-- A backslash `c` at the cursor, with the loop's `p++`: the cursor after it, where the
    value ends and whether there are escapes to strip. -/
def scanslash (c : UInt8) (p fin : S8) (cleanup : Bool) : S8 × S8 × Bool :=
  -- an escaped hash is included in the token and skipped over
  let q := if p.head? == some 0x23 then (p, p.tail, true) else (c :: p, fin, cleanup)
  let r := escaped q.1
  if r ≠ 0 then ((q.1.drop (r - 1)).tail, q.2.1, true) else (q.1.tail, q.2.1, q.2.2)

theorem scanslash_le (c : UInt8) (p fin : S8) (cleanup : Bool) : (scanslash c p fin cleanup).1.length ≤ p.length := by
  have hq : ∀ q : S8, q.length ≤ p.length + 1 → q.tail.length ≤ p.length := by
    intro q h
    rw [List.length_tail]; omega
  simp only [scanslash]
  by_cases h : p.head? == some 0x23
  · simp only [h, if_true]
    split
    · exact hq _ (by rw [List.length_drop]; omega)
    · exact hq _ (by omega)
  · simp only [h, if_false, Bool.false_eq_true]
    split
    · exact hq _ (by rw [List.length_drop, List.length_cons]; omega)
    · exact hq (c :: p) (Nat.le_refl _)

/-- The value's scan: where it stopped, where the value ends, and whether there are escapes
    to strip from it. -/
def scanvalue : S8 → S8 → Bool → S8 × S8 × Bool
  | [], fin, cleanup => ([], fin, cleanup)
  | c :: p, fin, cleanup =>
    if c == 0x0a then (c :: p, fin, cleanup)
    else if c == 0x23 then (skipline (c :: p), fin, cleanup)
    else if c == 0x5c then
      let q := scanslash c p fin cleanup
      scanvalue q.1 q.2.1 q.2.2
    else scanvalue p (if whitespace c then fin else p) cleanup
termination_by s => s.length
decreasing_by
  · exact Nat.lt_succ_of_le (scanslash_le _ _ _ _)
  · exact Nat.lt_succ_self _

/-- From the delimiter to the end of the value: where it stopped, and the value. -/
def scanfield (p : S8) : S8 × S8 :=
  let beg := skiplead p
  let r := scanvalue beg beg false
  let field := span beg r.2.1
  (r.1, if r.2.2 then stripescapes field else field)

theorem skipline_le (p : S8) : (skipline p).length ≤ p.length := by
  induction p with
  | nil => exact Nat.le_refl _
  | cons c p ih =>
    simp only [skipline, List.length_cons]
    split <;> omega

theorem scanname_le (p fin : S8) (c : UInt8) : (scanname p fin c).2.1.length ≤ p.length := by
  induction p generalizing fin c with
  | nil => exact Nat.le_refl _
  | cons d p ih =>
    simp only [scanname]
    split
    · exact Nat.le_succ _
    · exact Nat.le_succ_of_le (ih _ _)

theorem skiplead_le (p : S8) : (skiplead p).length ≤ p.length := by
  induction p using skiplead.induct with
  | case1 => simp [skiplead]
  | case2 c p hc r hr ih =>
    rw [skiplead, if_pos hc, if_pos hr]
    rw [List.length_drop] at ih
    exact Nat.le_trans ih (Nat.sub_le _ _)
  | case3 c p hc r hr => exact Nat.le_of_eq (by rw [skiplead, if_pos hc, if_neg hr])
  | case4 c p hc h => exact Nat.le_of_eq (by rw [skiplead, if_neg hc, if_pos h])
  | case5 c p hc h ih => rw [skiplead, if_neg hc, if_neg h]; exact Nat.le_succ_of_le ih

theorem scanvalue_le (p fin : S8) (cleanup : Bool) : (scanvalue p fin cleanup).1.length ≤ p.length := by
  induction p, fin, cleanup using scanvalue.induct with
  | case1 fin cleanup => simp [scanvalue]
  | case2 fin cleanup c p hc => exact Nat.le_of_eq (by rw [scanvalue, if_pos hc])
  | case3 fin cleanup c p h1 hc => rw [scanvalue, if_neg h1, if_pos hc]; exact skipline_le _
  | case4 fin cleanup c p h1 h2 hc q ih =>
    rw [scanvalue, if_neg h1, if_neg h2, if_pos hc]
    exact Nat.le_succ_of_le (Nat.le_trans ih (scanslash_le _ _ _ _))
  | case5 fin cleanup c p h1 h2 h3 ih =>
    rw [scanvalue, if_neg h1, if_neg h2, if_neg h3]
    exact Nat.le_succ_of_le ih

theorem scanfield_le (p : S8) : (scanfield p).1.length ≤ p.length :=
  Nat.le_trans (scanvalue_le _ _ _) (skiplead_le p)

/-! ## The lines -/

inductive Parseresult where
  | ok (pkg : Pkg)
  | dupvariable (name : S8)
  | dupfield (name : S8)

/-- The package, when `err` is `parse_OK`. -/
def Parseresult.ok? : Parseresult → Option Pkg
  | ok pkg => some pkg
  | _ => none

theorem Parseresult.ok?_eq_some {r : Parseresult} {pkg : Pkg} (h : r.ok? = some pkg) : r = .ok pkg := by
  cases r with
  | ok p => rw [Option.some.inj h]
  | dupvariable name => cases h
  | dupfield name => cases h

/-- The line at `p`, past leading space and not a comment: the delimiter, the name, and
    what follows the delimiter. Without a delimiter the first component is another byte. -/
def scanline (p : S8) : UInt8 × S8 × S8 :=
  let r := scanname p p 0
  (r.1, span p r.2.2, r.2.1)

theorem scanline_lt {p : S8} (h : p ≠ []) : (scanline p).2.2.length < p.length := by
  cases p with
  | nil => exact absurd rfl h
  | cons c p =>
    simp only [scanline, scanname]
    split
    · exact Nat.lt_succ_self _
    · exact Nat.lt_succ_of_le (scanname_le _ _ _)

theorem skipspace_le (p : S8) : (skipspace p).length ≤ p.length := (List.dropWhile_sublist _).length_le

theorem scanline_skipspace_lt {p : S8} (h : p ≠ []) : (scanline (skipspace p)).2.2.length < p.length := by
  by_cases hq : skipspace p = []
  · rw [hq]; exact List.length_pos_iff.mpr h
  · exact Nat.lt_of_lt_of_le (scanline_lt hq) (skipspace_le p)

theorem skipline_skipspace_lt {p : S8} (h : p ≠ []) : (skipline (skipspace p)).length < p.length := by
  cases hq : skipspace p with
  | nil => exact List.length_pos_iff.mpr h
  | cons c q =>
    have h1 := skipspace_le p
    have h2 := skipline_le q
    rw [hq, List.length_cons] at h1
    simp only [skipline]
    split <;> omega

def parseloop (pkg : Pkg) (p : S8) : Parseresult :=
  if _hp : p = [] then .ok pkg
  else
    let q := skipspace p
    if q.head? == some 0x23 then parseloop pkg (skipline q)
    else
      let line := scanline q
      if line.1 == 0x3d then
        match pkg.env.find line.2.1 with
        | some (some _) => .dupvariable line.2.1
        | _ =>
          let f := scanfield line.2.2
          parseloop { pkg with env := pkg.env.bind line.2.1 (some f.2) } f.1
      else if line.1 == 0x3a then
        match fieldbyname line.2.1 with
        | some i =>
          if (pkg.field i).isSome then .dupfield line.2.1
          else
            let f := scanfield line.2.2
            parseloop (pkg.setField i (some f.2)) f.1
        | none => parseloop pkg (scanfield line.2.2).1
      else parseloop pkg line.2.2
termination_by p.length
decreasing_by
  · exact skipline_skipspace_lt _hp
  · exact Nat.lt_of_le_of_lt (scanfield_le _) (scanline_skipspace_lt _hp)
  · exact Nat.lt_of_le_of_lt (scanfield_le _) (scanline_skipspace_lt _hp)
  · exact Nat.lt_of_le_of_lt (scanfield_le _) (scanline_skipspace_lt _hp)
  · exact scanline_skipspace_lt _hp

def parsepackage (src : S8) : Parseresult := parseloop { Pkg.zero with contents := some src } src

end GnuWindows.PkgConfig
