/-
  GnuWindows.PkgConfig.VersionTokens — `compareversions` on all byte strings.

  The code compares byte by byte, but two runs of digits by their lengths first. Cut into
  tokens, its runs of digits and the other bytes one by one, a version is compared token by
  token, and the order of the tokens is a total one.

  Proved:
  - `compareversions_tokens`: the code compares the lists of tokens.
  - `compareversions_total`: so it is a total order, in which only a string equals itself,
    and the acceptance of the operators is consistent.
-/
import GnuWindows.PkgConfig.VersionOrder

namespace GnuWindows.PkgConfig

open Std (OrientedCmp TransCmp LawfulEqCmp)

/-! ## Tokens -/

/-- The runs of digits, and the other bytes one by one. -/
def versiontokens : S8 → List S8
  | [] => []
  | c :: s => if digit c then (digits (c :: s)).1 :: versiontokens (digits (c :: s)).2 else [c] :: versiontokens s
termination_by s => s.length
decreasing_by
  · exact digits_tail_lt ‹_›
  · exact Nat.lt_succ_self _

/-- The first byte of a token, one and the same for all runs of digits. -/
def lead (t : S8) : UInt8 :=
  match t.head? with
  | some c => if digit c then 0x30 else c
  | none => 0

/-- By the first byte, then by the length, then byte by byte. -/
def comparetoken : S8 → S8 → Ordering := compareLex (compareOn lead) (compareLex (compareOn List.length) compare)

theorem versiontokens_flatten (s : S8) : (versiontokens s).flatten = s := by
  induction s using versiontokens.induct with
  | case1 => simp [versiontokens]
  | case2 c s h ih =>
    rw [versiontokens, if_pos h, List.flatten_cons, ih]
    exact List.takeWhile_append_dropWhile
  | case3 c s h ih => rw [versiontokens, if_neg h, List.flatten_cons, ih, List.singleton_append]

theorem versiontokens_inj {s t : S8} (h : versiontokens s = versiontokens t) : s = t := by
  rw [← versiontokens_flatten s, h, versiontokens_flatten]

theorem versiontokens_digit {c : UInt8} (s : S8) (h : digit c = true) :
    versiontokens (c :: s) = (digits (c :: s)).1 :: versiontokens (digits (c :: s)).2 := by rw [versiontokens, if_pos h]

theorem versiontokens_byte {c : UInt8} (s : S8) (h : digit c = false) :
    versiontokens (c :: s) = [c] :: versiontokens s := by
  rw [versiontokens, if_neg (by simp [h])]

/-- A version that is not empty has a first token, with its first byte. -/
theorem versiontokens_cons (c : UInt8) (s : S8) : ∃ t ts, versiontokens (c :: s) = t :: ts ∧ t.head? = some c := by
  cases h : digit c with
  | true =>
    refine ⟨_, _, versiontokens_digit s h, ?_⟩
    rw [digits, List.takeWhile_cons_of_pos h]
    rfl
  | false => exact ⟨_, _, versiontokens_byte s h, rfl⟩

/-! ## The comparison of tokens -/

theorem lead_of_head {t : S8} {c : UInt8} (h : t.head? = some c) : lead t = if digit c then 0x30 else c := by
  rw [lead, h]

/-- No other byte is between two digits. -/
theorem lead_lt {a b : UInt8} (hd : digit a = false ∨ digit b = false) :
    ((if digit a then 0x30 else a) < (if digit b then 0x30 else b)) ↔ a < b := by
  have range : ∀ c, digit c = true ↔ 0x30 ≤ c.toNat ∧ c.toNat ≤ 0x39 := by
    intro c
    simp only [digit, Bool.and_eq_true, decide_eq_true_eq, UInt8.le_iff_toNat_le]
    exact Iff.rfl
  have h30 : (0x30 : UInt8).toNat = 0x30 := rfl
  have ha := range a
  have hb := range b
  simp only [UInt8.lt_iff_toNat_lt]
  cases hda : digit a <;> cases hdb : digit b <;> simp_all <;> omega

theorem comparebyte (a b : UInt8) : compare a b = if a < b then .lt else if a > b then .gt else .eq := by
  split
  · exact Std.compare_eq_lt.mpr ‹_›
  · split
    · exact Std.compare_eq_gt.mpr ‹_›
    · next h h' =>
      exact Std.LawfulEqOrd.compare_eq_iff_eq.mpr (UInt8.le_antisymm (UInt8.not_lt.mp h') (UInt8.not_lt.mp h))

/-- Of two runs of the same length, the first difference decides. -/
theorem comparedigits_compare {x y : S8} (h : x.length = y.length) : comparedigits x y = sign (compare x y) := by
  induction x generalizing y with
  | nil =>
    cases List.length_eq_zero_iff.mp h.symm
    rfl
  | cons a x ih =>
    cases y with
    | nil => cases h
    | cons b y =>
      rw [comparedigits, List.compare_cons_cons, comparebyte, ih (Nat.succ.inj h)]
      split
      · rfl
      · split <;> rfl

theorem comparetoken_lead {x y : S8} (h : lead x ≠ lead y) : comparetoken x y = compare (lead x) (lead y) := by
  have hne : compare (lead x) (lead y) ≠ .eq := fun he => h (Std.LawfulEqOrd.compare_eq_iff_eq.mp he)
  simp only [comparetoken, compareLex, compareOn]
  cases hc : compare (lead x) (lead y) with
  | eq => exact absurd hc hne
  | lt => rfl
  | gt => rfl

/-- Two runs of digits, by their lengths, then by their bytes. -/
theorem comparetoken_runs {x y : S8} (h : lead x = lead y) :
    sign (comparetoken x y) =
      if x.length < y.length then -1 else if x.length > y.length then 1 else comparedigits x y := by
  have he : compare (lead x) (lead y) = .eq := Std.LawfulEqOrd.compare_eq_iff_eq.mpr h
  simp only [comparetoken, compareLex, compareOn, he, Ordering.eq_then]
  rcases Nat.lt_trichotomy x.length y.length with hl | hl | hl
  · rw [if_pos hl, Nat.compare_eq_lt.mpr hl]
    rfl
  · rw [if_neg (by omega), if_neg (by omega), Nat.compare_eq_eq.mpr hl, comparedigits_compare hl]
    rfl
  · rw [if_neg (by omega), if_pos hl, Nat.compare_eq_gt.mpr hl]
    rfl

instance : TransCmp comparetoken := inferInstanceAs (TransCmp (compareLex _ _))

/-- Only a token equals itself. -/
instance : LawfulEqCmp comparetoken where
  eq_of_compare := by
    intro x y h
    simp only [comparetoken, compareLex_eq_eq] at h
    exact Std.LawfulEqOrd.compare_eq_iff_eq.mp h.2.2

/-! ## The comparison of versions -/

theorem sign_then (a b : Ordering) : sign (a.then b) = if sign a ≠ 0 then sign a else sign b := by
  cases a <;> rfl

theorem compareversions_byte {a b : UInt8} (va vb : S8) (hd : digit a = false ∨ digit b = false) :
    compareversions (a :: va) (b :: vb) = if a < b then -1 else if a > b then 1 else compareversions va vb := by
  rw [compareversions, dif_pos (by rcases hd with h | h <;> simp [h])]

theorem compareversions_digits {a b : UInt8} (va vb : S8) (ha : digit a = true) (hb : digit b = true) :
    compareversions (a :: va) (b :: vb) =
      if sign (comparetoken (digits (a :: va)).1 (digits (b :: vb)).1) ≠ 0 then
        sign (comparetoken (digits (a :: va)).1 (digits (b :: vb)).1)
      else compareversions (digits (a :: va)).2 (digits (b :: vb)).2 := by
  have hlead : lead (digits (a :: va)).1 = lead (digits (b :: vb)).1 := by
    rw [digits, digits, List.takeWhile_cons_of_pos ha, List.takeWhile_cons_of_pos hb, lead_of_head rfl,
      lead_of_head rfl, if_pos ha, if_pos hb]
  rw [comparetoken_runs hlead, compareversions, dif_neg (by simp [ha, hb])]
  simp only
  split
  · rfl
  · split <;> rfl

/-- The first bytes decide between two tokens that are not both runs. -/
theorem comparetoken_heads {x y : S8} {a b : UInt8} (hx : x.head? = some a) (hy : y.head? = some b)
    (hd : digit a = false ∨ digit b = false) (hne : a ≠ b) : comparetoken x y = if a < b then .lt else .gt := by
  have hlt := lead_lt hd
  have hgt := lead_lt (Or.comm.mp hd)
  rw [← lead_of_head hx, ← lead_of_head hy] at hlt hgt
  have hor : a < b ∨ b < a := UInt8.lt_or_lt_of_ne hne
  have hlead : lead x ≠ lead y := by
    intro he
    rw [he] at hlt hgt
    exact hor.elim (fun h => UInt8.lt_irrefl _ (hlt.mpr h)) fun h => UInt8.lt_irrefl _ (hgt.mpr h)
  rw [comparetoken_lead hlead, comparebyte]
  rcases hor with h | h
  · rw [if_pos h, if_pos (hlt.mpr h)]
  · rw [if_neg (UInt8.lt_asymm h), if_neg (UInt8.lt_asymm (hgt.mpr h)), if_pos (hgt.mpr h)]

/-- The code compares token by token. -/
theorem compareversions_tokens (a b : S8) :
    compareversions a b = sign ((versiontokens a).compareLex comparetoken (versiontokens b)) := by
  induction hl : a.length using Nat.strongRecOn generalizing a b with
  | _ n ih =>
    subst hl
    cases a with
    | nil =>
      cases b with
      | nil =>
        rw [compareversions_nil, versiontokens]
        rfl
      | cons b vb =>
        obtain ⟨t, ts, ht, -⟩ := versiontokens_cons b vb
        rw [compareversions_nil, if_pos (show (b :: vb).length > 0 from Nat.succ_pos _), ht, versiontokens]
        rfl
    | cons a va =>
      cases b with
      | nil =>
        obtain ⟨t, ts, ht, -⟩ := versiontokens_cons a va
        rw [compareversions_nil_right, if_pos (show (a :: va).length > 0 from Nat.succ_pos _), ht, versiontokens]
        rfl
      | cons b vb =>
        by_cases hd : digit a = true ∧ digit b = true
        · obtain ⟨ha, hb⟩ := hd
          rw [compareversions_digits va vb ha hb, ih _ (digits_tail_lt ha) _ _ rfl, versiontokens_digit va ha,
            versiontokens_digit vb hb, List.compareLex_cons_cons, sign_then]
        · have hd : digit a = false ∨ digit b = false := by
            cases ha : digit a <;> cases hb : digit b <;> simp_all
          rw [compareversions_byte va vb hd]
          by_cases hab : a = b
          · subst hab
            have ha : digit a = false := hd.elim id id
            have hself : comparetoken [a] [a] = .eq := Std.ReflCmp.compare_self
            rw [if_neg (UInt8.lt_irrefl a), if_neg (UInt8.lt_irrefl a), ih _ (Nat.lt_succ_self _) _ _ rfl,
              versiontokens_byte va ha, versiontokens_byte vb ha, List.compareLex_cons_cons,
              hself, Ordering.eq_then]
          · obtain ⟨x, xs, hx, hxa⟩ := versiontokens_cons a va
            obtain ⟨y, ys, hy, hyb⟩ := versiontokens_cons b vb
            rw [hx, hy, List.compareLex_cons_cons, comparetoken_heads hxa hyb hd hab]
            rcases UInt8.lt_or_lt_of_ne hab with h | h
            · rw [if_pos h, if_pos h]
              rfl
            · rw [if_neg (UInt8.lt_asymm h), if_neg (UInt8.lt_asymm h), if_pos h]
              rfl

/-! ## The order -/

theorem sign_swap (a : Ordering) : sign a.swap = -sign a := by
  cases a <;> rfl

theorem sign_nonpos {a : Ordering} : sign a ≤ 0 ↔ a.isLE = true := by
  cases a <;> decide

theorem compareversions_swap (a b : S8) : compareversions b a = -compareversions a b := by
  have hswap : List.compareLex comparetoken (versiontokens b) (versiontokens a) =
    (List.compareLex comparetoken (versiontokens a) (versiontokens b)).swap := OrientedCmp.eq_swap
  rw [compareversions_tokens, compareversions_tokens, ← sign_swap, hswap]

theorem compareversions_trans {a b c : S8} (hab : compareversions a b ≤ 0) (hbc : compareversions b c ≤ 0) :
    compareversions a c ≤ 0 := by
  rw [compareversions_tokens, sign_nonpos] at hab hbc ⊢
  exact TransCmp.isLE_trans hab hbc

theorem compareversions_eq {a b : S8} : compareversions a b = 0 ↔ a = b := by
  have hzero : ∀ o, sign o = 0 ↔ o = .eq := fun o => sign_inj (b := .eq)
  rw [compareversions_tokens, hzero, LawfulEqCmp.compare_eq_iff_eq]
  exact ⟨versiontokens_inj, congrArg versiontokens⟩

/-- For all versions, the comparison is a total order in which only a version is equal to
    itself. The operators accept what such an order has: `>=` is `<=` the other way, `=` is
    both of them, and one of them holds of any two versions. -/
theorem compareversions_total :
    (∀ a b, compareversions b a = -compareversions a b) ∧
    (∀ a b c, compareversions a b ≤ 0 → compareversions b c ≤ 0 → compareversions a c ≤ 0) ∧
    (∀ a b, compareversions a b = 0 ↔ a = b) ∧
    ∀ a b,
      validcompare .GTE (compareversions a b) = validcompare .LTE (compareversions b a) ∧
      validcompare .EQ (compareversions a b) =
        (validcompare .LTE (compareversions a b) && validcompare .GTE (compareversions a b)) ∧
      (validcompare .LTE (compareversions a b) || validcompare .GTE (compareversions a b)) = true := by
  refine ⟨compareversions_swap, fun _ _ _ => compareversions_trans, fun _ _ => compareversions_eq, fun a b => ?_⟩
  rw [compareversions_swap a b]
  generalize compareversions a b = r
  refine ⟨?_, ?_, ?_⟩
  · exact decide_eq_decide.mpr (by omega)
  · rw [Bool.eq_iff_iff]
    simp only [validcompare, Bool.and_eq_true, decide_eq_true_eq, beq_iff_eq]
    omega
  · simp only [validcompare, Bool.or_eq_true, decide_eq_true_eq]
    omega

end GnuWindows.PkgConfig
