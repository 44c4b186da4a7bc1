/-
  GnuWindows.PkgConfig.Version — version strings and the operators of constraints.
-/
import GnuWindows.PkgConfig.Bytes

namespace GnuWindows.PkgConfig

/-- The digits at the beginning and what follows them. -/
def digits (s : S8) : S8 × S8 := (s.takeWhile digit, s.dropWhile digit)

theorem digits_tail_lt {c : UInt8} {s : S8} (h : digit c = true) : (digits (c :: s)).2.length < (c :: s).length := by
  simp only [digits, List.dropWhile_cons_of_pos h, List.length_cons]
  exact Nat.lt_succ_of_le (List.dropWhile_sublist _).length_le

/-- Digit strings of the same length, byte by byte. -/
def comparedigits : S8 → S8 → Int
  | a :: va, b :: vb => if a < b then -1 else if a > b then 1 else comparedigits va vb
  | _, _ => 0

/-- -1, 0 or 1. The index `i` is what was taken off both strings. -/
def compareversions : S8 → S8 → Int
  | a :: va, b :: vb =>
    if h : !digit a || !digit b then
      if a < b then -1 else if a > b then 1 else compareversions va vb
    else
      let pa := digits (a :: va)
      let pb := digits (b :: vb)
      if pa.1.length < pb.1.length then -1
      else if pa.1.length > pb.1.length then 1
      else if comparedigits pa.1 pb.1 ≠ 0 then comparedigits pa.1 pb.1
      else compareversions pa.2 pb.2
  | va, vb => if va.length < vb.length then -1 else if va.length > vb.length then 1 else 0
termination_by va => va.length
decreasing_by
  · exact Nat.lt_succ_self _
  · apply digits_tail_lt
    simp only [Bool.or_eq_true, Bool.not_eq_true', not_or, Bool.not_eq_false] at h
    exact h.1

inductive Versop where
  | ERR
  | LT
  | LTE
  | EQ
  | GTE
  | GT
  deriving DecidableEq

def parseop (s : S8) : Versop :=
  if S "<" == s then .LT
  else if S "<=" == s then .LTE
  else if S "=" == s then .EQ
  else if S ">=" == s then .GTE
  else if S ">" == s then .GT
  else .ERR

/-- Never asked of `ERR`. -/
def opname : Versop → S8
  | .ERR => []
  | .LT => S "<"
  | .LTE => S "<="
  | .EQ => S "="
  | .GTE => S ">="
  | .GT => S ">"

/-- Never asked of `ERR`. -/
def validcompare (op : Versop) (result : Int) : Bool :=
  match op with
  | .ERR => false
  | .LT => result < 0
  | .LTE => result ≤ 0
  | .EQ => result == 0
  | .GTE => result ≥ 0
  | .GT => result > 0

/-- An operator is the one its name says. -/
theorem opname_parseop {s : S8} (h : parseop s ≠ .ERR) : opname (parseop s) = s := by
  unfold parseop at h ⊢
  split
  · simp_all [opname]
  · split
    · simp_all [opname]
    · split
      · simp_all [opname]
      · split
        · simp_all [opname]
        · split
          · simp_all [opname]
          · simp_all

end GnuWindows.PkgConfig
