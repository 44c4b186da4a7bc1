/-
  GnuWindows.PkgConfig.VersionOrder — the order of versions that are numbers joined by
  dots, against the order of the lists of these numbers (`compareversions`, "Follows the
  RPM version comparison specification like the original pkg-config").

  The code compares two runs of digits by their lengths first and byte by byte only when
  these agree, and never drops leading zeros, as the RPM comparison does.

  Proved:
  - `compareversions_dotted`: the code compares the components one by one, by the number
    of digits and then by value.
  - `compareversions_numbers_iff`: this is the order of the numbers exactly when, at the
    first components with different numbers of digits, the version with fewer digits there
    is the smaller one from there on.
  - `compareversions_canonical`: so it is for versions without redundant leading zeros.
-/
import GnuWindows.PkgConfig.Version
import Mathlib.Tactic.Ring

namespace GnuWindows.PkgConfig

/-- The number that a run of digits writes. -/
def value (s : S8) : Nat := s.foldl (fun n c => 10 * n + (c.toNat - 0x30)) 0

def numbers (xs : List S8) : List Nat := xs.map value

/-- Components joined by dots. -/
def dotted (xs : List S8) : S8 := (S ".").intercalate xs

/-- One or more decimal numbers. -/
structure Decimal (xs : List S8) : Prop where
  one : xs ≠ []
  digits : ∀ x ∈ xs, x ≠ [] ∧ ∀ c ∈ x, digit c = true

theorem decimal_iff (xs : List S8) : xs ≠ [] ∧ xs.all (fun x => x != [] && x.all digit) = true ↔ Decimal xs := by
  simp only [List.all_eq_true, Bool.and_eq_true, bne_iff_ne]
  exact ⟨fun h => ⟨h.1, h.2⟩, fun h => ⟨h.one, h.digits⟩⟩

instance (xs : List S8) : Decidable (Decimal xs) := decidable_of_iff _ (decimal_iff xs)

def sign : Ordering → Int
  | .lt => -1
  | .eq => 0
  | .gt => 1

theorem sign_inj {a b : Ordering} : sign a = sign b ↔ a = b := by
  cases a <;> cases b <;> decide

/-! ## Runs of digits of one length -/

theorem value_snoc (s : S8) (c : UInt8) : value (s ++ [c]) = 10 * value s + (c.toNat - 0x30) := by
  simp only [value, List.foldl_append, List.foldl_cons, List.foldl_nil]

theorem foldl_value (n : Nat) (s : S8) :
    s.foldl (fun n c => 10 * n + (c.toNat - 0x30)) n = n * 10 ^ s.length + value s := by
  induction s generalizing n with
  | nil => simp [value]
  | cons c s ih =>
    have hv : value (c :: s) = (10 * 0 + (c.toNat - 0x30)) * 10 ^ s.length + value s := by
      rw [value, List.foldl_cons, ih]
    rw [List.foldl_cons, ih, hv, List.length_cons, Nat.pow_succ]
    ring

theorem value_cons (c : UInt8) (s : S8) : value (c :: s) = (c.toNat - 0x30) * 10 ^ s.length + value s := by
  rw [value, List.foldl_cons, foldl_value, Nat.mul_zero, Nat.zero_add]

theorem digit_le {c : UInt8} (h : digit c = true) : 0x30 ≤ c.toNat ∧ c.toNat ≤ 0x39 := by
  simp only [digit, Bool.and_eq_true, decide_eq_true_eq, UInt8.le_iff_toNat_le] at h
  exact h

theorem value_lt {s : S8} (h : ∀ c ∈ s, digit c = true) : value s < 10 ^ s.length := by
  induction s with
  | nil => simp [value]
  | cons c s ih =>
    obtain ⟨hc, hs⟩ := List.forall_mem_cons.mp h
    have hv := ih hs
    have hd := digit_le hc
    have hm : (c.toNat - 0x30) * 10 ^ s.length ≤ 9 * 10 ^ s.length := Nat.mul_le_mul_right _ (by omega)
    rw [value_cons, List.length_cons, Nat.pow_succ]
    omega

/-- A larger first digit outweighs all that follow. -/
theorem value_cons_lt {a b : UInt8} {x y : S8} (ha : digit a = true) (hx : ∀ c ∈ x, digit c = true)
    (hl : x.length = y.length) (h : a < b) : value (a :: x) < value (b :: y) := by
  have hab : a.toNat < b.toNat := UInt8.lt_iff_toNat_lt.mp h
  have da := digit_le ha
  have vx := value_lt hx
  have hm : (a.toNat - 0x30 + 1) * 10 ^ y.length ≤ (b.toNat - 0x30) * 10 ^ y.length :=
    Nat.mul_le_mul_right _ (by omega)
  rw [hl] at vx
  rw [value_cons, value_cons, hl]
  rw [Nat.add_mul] at hm
  omega

/-- Of two runs of the same length, the bytes decide as the numbers do. -/
theorem comparedigits_value {x y : S8} (hx : ∀ c ∈ x, digit c = true) (hy : ∀ c ∈ y, digit c = true)
    (hl : x.length = y.length) : comparedigits x y = sign (compare (value x) (value y)) := by
  induction x generalizing y with
  | nil =>
    cases List.length_eq_zero_iff.mp hl.symm
    rfl
  | cons a x ih =>
    cases y with
    | nil => cases hl
    | cons b y =>
      obtain ⟨ha, hx⟩ := List.forall_mem_cons.mp hx
      obtain ⟨hb, hy⟩ := List.forall_mem_cons.mp hy
      have hl : x.length = y.length := Nat.succ.inj hl
      rw [comparedigits]
      split
      · next h =>
        rw [Nat.compare_eq_lt.mpr (value_cons_lt ha hx hl h)]
        rfl
      · split
        · next h =>
          rw [Nat.compare_eq_gt.mpr (value_cons_lt hb hy hl.symm h)]
          rfl
        · next h h' =>
          rw [UInt8.le_antisymm (UInt8.not_lt.mp h') (UInt8.not_lt.mp h), ih hx hy hl, value_cons, value_cons, hl]
          simp only [Nat.compare_eq_ite_lt, Nat.add_lt_add_iff_left]

/-! ## Dotted versions -/

/-- By the number of digits, then by value. -/
def comparerun : S8 → S8 → Ordering := compareLex (compareOn List.length) (compareOn value)

theorem digits_append {x s : S8} (hx : ∀ c ∈ x, digit c = true) (hs : ∀ c ∈ s.head?, digit c = false) :
    digits (x ++ s) = (x, s) := by
  have ht : s.takeWhile digit = [] ∧ s.dropWhile digit = s := by
    cases s with
    | nil => exact ⟨rfl, rfl⟩
    | cons c s =>
      have := hs c rfl
      simp [this]
  rw [digits, List.takeWhile_append_of_pos hx, List.dropWhile_append_of_pos hx, ht.1, ht.2, List.append_nil]

/-- Two runs of digits at the beginning decide, or are taken off. -/
theorem compareversions_runs {x y s t : S8} (hx : ∀ c ∈ x, digit c = true) (hy : ∀ c ∈ y, digit c = true)
    (nx : x ≠ []) (ny : y ≠ []) (hs : ∀ c ∈ s.head?, digit c = false) (ht : ∀ c ∈ t.head?, digit c = false) :
    compareversions (x ++ s) (y ++ t) =
      match comparerun x y with
      | .lt => -1
      | .eq => compareversions s t
      | .gt => 1 := by
  obtain ⟨a, x, rfl⟩ := List.exists_cons_of_ne_nil nx
  obtain ⟨b, y, rfl⟩ := List.exists_cons_of_ne_nil ny
  have ha := (List.forall_mem_cons.mp hx).1
  have hb := (List.forall_mem_cons.mp hy).1
  rw [List.cons_append, List.cons_append, compareversions, dif_neg (by simp [ha, hb]), ← List.cons_append,
    ← List.cons_append, digits_append hx hs, digits_append hy ht]
  simp only [comparerun, compareLex, compareOn]
  rcases Nat.lt_trichotomy (a :: x).length (b :: y).length with h | h | h
  · rw [if_pos h, Nat.compare_eq_lt.mpr h]
    rfl
  · rw [if_neg (by omega), if_neg (by omega), comparedigits_value hx hy h, Nat.compare_eq_eq.mpr h]
    cases compare (value (a :: x)) (value (b :: y)) <;> rfl
  · rw [if_neg (by omega), if_pos h, Nat.compare_eq_gt.mpr h]
    rfl

theorem compareversions_nil (t : S8) : compareversions [] t = if t.length > 0 then -1 else 0 := by
  cases t <;> simp [compareversions]

theorem compareversions_nil_right (s : S8) : compareversions s [] = if s.length > 0 then 1 else 0 := by
  cases s <;> simp [compareversions]

theorem compareversions_dot (s t : S8) : compareversions (S "." ++ s) (S "." ++ t) = compareversions s t := by
  show compareversions (0x2e :: s) (0x2e :: t) = _
  rw [compareversions, dif_pos (by decide), if_neg (UInt8.lt_irrefl _), if_neg (UInt8.lt_irrefl _)]

theorem dotted_cons (x : S8) {xs : List S8} (h : xs ≠ []) : dotted (x :: xs) = x ++ (S "." ++ dotted xs) := by
  rw [dotted, List.intercalate_cons_of_ne_nil h, List.append_assoc]
  rfl

/-- What follows a component does not begin with a digit. -/
def dottedtail (xs : List S8) : S8 := if xs = [] then [] else S "." ++ dotted xs

theorem dottedtail_head (xs : List S8) : ∀ c ∈ (dottedtail xs).head?, digit c = false := by
  unfold dottedtail
  split
  · simp
  · intro c hc
    cases hc
    rfl

theorem dotted_eq (x : S8) (xs : List S8) : dotted (x :: xs) = x ++ dottedtail xs := by
  unfold dottedtail
  split
  · next h =>
    subst h
    simp [dotted]
  · next h => exact dotted_cons x h

/-- The code compares component by component. -/
theorem compareversions_tails {xs ys : List S8} (hx : ∀ x ∈ xs, x ≠ [] ∧ ∀ c ∈ x, digit c = true)
    (hy : ∀ y ∈ ys, y ≠ [] ∧ ∀ c ∈ y, digit c = true) :
    compareversions (dottedtail xs) (dottedtail ys) = sign (xs.compareLex comparerun ys) := by
  induction xs generalizing ys with
  | nil =>
    cases ys with
    | nil => exact compareversions_nil []
    | cons y ys =>
      have h : 0 < (dottedtail (y :: ys)).length := Nat.succ_pos _
      exact (compareversions_nil _).trans (if_pos h)
  | cons x xs ih =>
    cases ys with
    | nil =>
      have h : 0 < (dottedtail (x :: xs)).length := Nat.succ_pos _
      exact (compareversions_nil_right _).trans (if_pos h)
    | cons y ys =>
      obtain ⟨⟨nx, hx⟩, hxs⟩ := List.forall_mem_cons.mp hx
      obtain ⟨⟨ny, hy⟩, hys⟩ := List.forall_mem_cons.mp hy
      have hd : ∀ (z : S8) (zs : List S8), dottedtail (z :: zs) = S "." ++ dotted (z :: zs) := fun _ _ => rfl
      rw [hd, hd, compareversions_dot, dotted_eq, dotted_eq,
        compareversions_runs hx hy nx ny (dottedtail_head _) (dottedtail_head _), List.compareLex_cons_cons, ih hxs hys]
      cases comparerun x y <;> rfl

theorem compareversions_dotted {xs ys : List S8} (hx : Decimal xs) (hy : Decimal ys) :
    compareversions (dotted xs) (dotted ys) = sign (xs.compareLex comparerun ys) := by
  have h : ∀ {zs : List S8}, Decimal zs → dottedtail zs = S "." ++ dotted zs := fun hz => if_neg hz.one
  rw [← compareversions_dot, ← h hx, ← h hy]
  exact compareversions_tails hx.digits hy.digits

/-! ## The order of the numbers -/

theorem compare_numbers (xs ys : List S8) : compare (numbers xs) (numbers ys) = xs.compareLex (compareOn value) ys := by
  induction xs generalizing ys with
  | nil => cases ys <;> rfl
  | cons x xs ih =>
    cases ys with
    | nil => rfl
    | cons y ys =>
      have h := ih ys
      simp only [numbers, List.map_cons, List.compare_eq_compareLex, List.compareLex_cons_cons] at h ⊢
      rw [h]
      rfl

/-- The number `x` is smaller than `y`, or equal and what follows it is smaller. -/
def Less (x : S8) (a : List S8) (y : S8) (b : List S8) : Prop :=
  value x < value y ∨ value x = value y ∧ compare (numbers a) (numbers b) = .lt

theorem compare_cons_lt {x y : S8} {a b : List S8} :
    compare (numbers (x :: a)) (numbers (y :: b)) = .lt ↔ Less x a y b := by
  rw [numbers, numbers, List.map_cons, List.map_cons, List.compare_cons_cons, Ordering.then_eq_lt, Nat.compare_eq_lt,
    Nat.compare_eq_eq]
  rfl

theorem compare_cons_gt {x y : S8} {a b : List S8} :
    compare (numbers (x :: a)) (numbers (y :: b)) = .gt ↔ Less y b x a := by
  rw [← compare_cons_lt, Std.OrientedCmp.gt_iff_lt]

/-- Digits of one length that write one number are the same text. -/
theorem value_inj {x y : S8} (hx : ∀ c ∈ x, digit c = true) (hy : ∀ c ∈ y, digit c = true)
    (hl : x.length = y.length) (hv : value x = value y) : x = y := by
  induction x generalizing y with
  | nil => exact (List.length_eq_zero_iff.mp hl.symm).symm
  | cons a x ih =>
    cases y with
    | nil => cases hl
    | cons b y =>
      obtain ⟨ha, hx'⟩ := List.forall_mem_cons.mp hx
      obtain ⟨hb, hy'⟩ := List.forall_mem_cons.mp hy
      have hl' : x.length = y.length := Nat.succ.inj hl
      have hba : ¬ b < a := fun h => absurd hv (Nat.ne_of_gt (value_cons_lt hb hy' hl'.symm h))
      have hab : ¬ a < b := fun h => absurd hv (Nat.ne_of_lt (value_cons_lt ha hx' hl' h))
      have hc : a = b := UInt8.le_antisymm (UInt8.not_lt.mp hba) (UInt8.not_lt.mp hab)
      rw [value_cons, value_cons, hl', hc] at hv
      rw [hc, ih hx' hy' hl' (Nat.add_left_cancel hv)]

/-- Runs written differently are never equal to the code. -/
theorem comparerun_eq {x y : S8} (hx : ∀ c ∈ x, digit c = true) (hy : ∀ c ∈ y, digit c = true) :
    comparerun x y = .eq ↔ x = y := by
  simp only [comparerun, compareLex_eq_eq, compareOn, Nat.compare_eq_eq]
  constructor
  · intro h
    exact value_inj hx hy h.1 h.2
  · rintro rfl
    exact ⟨rfl, rfl⟩

/-- At the first components with different numbers of digits, fewer digits are less. -/
def Fewerless (xs ys : List S8) : Prop :=
  ∀ p x a y b, xs = p ++ x :: a → ys = p ++ y :: b →
    (x.length < y.length → Less x a y b) ∧ (y.length < x.length → Less y b x a)

theorem fewerless_cons {x : S8} {xs ys : List S8} : Fewerless (x :: xs) (x :: ys) ↔ Fewerless xs ys := by
  constructor
  · intro h p y a z b hx hy
    exact h (x :: p) y a z b (by rw [hx]; rfl) (by rw [hy]; rfl)
  · intro h p y a z b hx hy
    cases p with
    | nil =>
      obtain ⟨rfl, -⟩ := List.cons.inj hx
      obtain ⟨rfl, -⟩ := List.cons.inj hy
      exact ⟨fun hl => absurd hl (Nat.lt_irrefl _), fun hl => absurd hl (Nat.lt_irrefl _)⟩
    | cons q p => exact h p y a z b (List.cons.inj hx).2 (List.cons.inj hy).2

theorem fewerless_of_ne {x y : S8} {xs ys : List S8} (h : x ≠ y) :
    Fewerless (x :: xs) (y :: ys) ↔ (x.length < y.length → Less x xs y ys) ∧
      (y.length < x.length → Less y ys x xs) := by
  constructor
  · intro hf
    exact hf [] x xs y ys rfl rfl
  · intro hf p z a w b hx hy
    cases p with
    | nil =>
      cases hx
      cases hy
      exact hf
    | cons q p =>
      obtain ⟨rfl, -⟩ := List.cons.inj hx
      exact absurd (List.cons.inj hy).1.symm h

theorem compareLex_numbers_iff {xs ys : List S8} (hx : ∀ x ∈ xs, x ≠ [] ∧ ∀ c ∈ x, digit c = true)
    (hy : ∀ y ∈ ys, y ≠ [] ∧ ∀ c ∈ y, digit c = true) :
    xs.compareLex comparerun ys = compare (numbers xs) (numbers ys) ↔ Fewerless xs ys := by
  induction xs generalizing ys with
  | nil =>
    have h : Fewerless [] ys := fun p x a y b hp => absurd hp.symm (List.append_ne_nil_of_right_ne_nil p nofun)
    cases ys <;> exact iff_of_true rfl h
  | cons x xs ih =>
    cases ys with
    | nil =>
      have h : Fewerless (x :: xs) [] := fun p y a z b _ hp =>
        absurd hp.symm (List.append_ne_nil_of_right_ne_nil p nofun)
      exact iff_of_true rfl h
    | cons y ys =>
      obtain ⟨⟨-, hx⟩, hxs⟩ := List.forall_mem_cons.mp hx
      obtain ⟨⟨-, hy⟩, hys⟩ := List.forall_mem_cons.mp hy
      by_cases hxy : x = y
      · subst hxy
        rw [fewerless_cons, ← ih hxs hys, List.compareLex_cons_cons, (comparerun_eq hx hx).mpr rfl, compare_numbers,
          List.compareLex_cons_cons, compare_numbers, compareOn, Nat.compare_eq_eq.mpr rfl]
        rfl
      · rw [fewerless_of_ne hxy, List.compareLex_cons_cons]
        have hne : comparerun x y ≠ .eq := fun h => hxy ((comparerun_eq hx hy).mp h)
        rcases Nat.lt_trichotomy x.length y.length with hl | hl | hl
        · have hc : comparerun x y = .lt := by
            simp only [comparerun, compareLex, compareOn, Nat.compare_eq_lt.mpr hl, Ordering.then]
          rw [hc, Ordering.lt_then, eq_comm, compare_cons_lt]
          exact ⟨fun h => ⟨fun _ => h, fun h' => absurd h' (by omega)⟩, fun h => h.1 hl⟩
        · have hc : comparerun x y = compare (value x) (value y) := by
            simp only [comparerun, compareLex, compareOn, Nat.compare_eq_eq.mpr hl, Ordering.eq_then]
          have hr : compare (numbers (x :: xs)) (numbers (y :: ys)) = comparerun x y := by
            rw [compare_numbers, List.compareLex_cons_cons, compareOn, ← hc]
            cases h : comparerun x y
            · rfl
            · exact absurd h hne
            · rfl
          rw [hr]
          cases h : comparerun x y
          · exact iff_of_true rfl ⟨by omega, by omega⟩
          · exact absurd h hne
          · exact iff_of_true rfl ⟨by omega, by omega⟩
        · have hc : comparerun x y = .gt := by
            simp only [comparerun, compareLex, compareOn, Nat.compare_eq_gt.mpr hl, Ordering.then]
          rw [hc, Ordering.gt_then, eq_comm, compare_cons_gt]
          exact ⟨fun h => ⟨fun h' => absurd h' (by omega), fun _ => h⟩, fun h => h.2 hl⟩

theorem compareversions_numbers_iff {xs ys : List S8} (hx : Decimal xs) (hy : Decimal ys) :
    compareversions (dotted xs) (dotted ys) = sign (compare (numbers xs) (numbers ys)) ↔ Fewerless xs ys := by
  rw [compareversions_dotted hx hy, sign_inj]
  exact compareLex_numbers_iff hx.digits hy.digits

theorem compareversions_numbers_iff_lengths :
    compareversions (S "1.10") (S "1.9") = 1 ∧ Fewerless [S "1", S "10"] [S "1", S "9"] := by
  have hx : Decimal [S "1", S "10"] := by decide
  have hy : Decimal [S "1", S "9"] := by decide
  have h : compareversions (S "1.10") (S "1.9") = 1 :=
    (compareversions_dotted hx hy).trans (by decide)
  exact ⟨h, (compareversions_numbers_iff hx hy).mp h⟩

/-- A zero in front makes a version newer. -/
theorem leading_zero_newer :
    ∃ xs ys, Decimal xs ∧ Decimal ys ∧
      compareversions (dotted xs) (dotted ys) ≠ sign (compare (numbers xs) (numbers ys)) := by
  have hx : Decimal [S "1", S "01"] := by decide
  have hy : Decimal [S "1", S "2"] := by decide
  refine ⟨[S "1", S "01"], [S "1", S "2"], hx, hy, ?_⟩
  rw [compareversions_dotted hx hy]
  decide

/-- Without redundant zeros in front, more digits are a larger number. -/
def Canonical (x : S8) : Prop := x = S "0" ∨ x.head? ≠ some 0x30

theorem value_lt_of_shorter {x y : S8} (hx : ∀ c ∈ x, digit c = true) (hy : ∀ c ∈ y, digit c = true) (nx : x ≠ [])
    (cy : Canonical y) (h : x.length < y.length) : value x < value y := by
  have hp := List.length_pos_iff.mpr nx
  rcases cy with rfl | cy
  · have h0 : (S "0").length = 1 := rfl
    omega
  · cases y with
    | nil => cases h
    | cons b y =>
      have hb : b ≠ 0x30 := fun h => cy (by rw [h]; rfl)
      have hd := digit_le (hy b List.mem_cons_self)
      have hne : b.toNat ≠ 0x30 := fun h => hb (UInt8.toNat_inj.mp h)
      have hv := value_lt hx
      have hm : 10 ^ x.length ≤ 10 ^ y.length := Nat.pow_le_pow_right (by omega) (Nat.le_of_lt_succ h)
      have ho : 1 * 10 ^ y.length ≤ (b.toNat - 0x30) * 10 ^ y.length := Nat.mul_le_mul_right _ (by omega)
      rw [value_cons]
      omega

theorem compareversions_canonical {xs ys : List S8} (hx : Decimal xs) (hy : Decimal ys) (cx : ∀ x ∈ xs, Canonical x)
    (cy : ∀ y ∈ ys, Canonical y) :
    compareversions (dotted xs) (dotted ys) = sign (compare (numbers xs) (numbers ys)) := by
  rw [compareversions_dotted hx hy, sign_inj, compareLex_numbers_iff hx.digits hy.digits]
  intro p x a y b hp hq
  have mx : x ∈ xs := hp ▸ List.mem_append_right _ List.mem_cons_self
  have my : y ∈ ys := hq ▸ List.mem_append_right _ List.mem_cons_self
  obtain ⟨nx, dx⟩ := hx.digits x mx
  obtain ⟨ny, dy⟩ := hy.digits y my
  exact ⟨fun h => .inl (value_lt_of_shorter dx dy nx (cy y my) h),
    fun h => .inl (value_lt_of_shorter dy dx ny (cx x mx) h)⟩

end GnuWindows.PkgConfig
