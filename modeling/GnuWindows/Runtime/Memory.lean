/-
  GnuWindows.Runtime.Memory — copying and comparing bytes (`memmove`, `memcmp` of
  libmemory.c).

  Both are string instructions with the operands in their registers. The calling convention
  has the direction flag clear. `memmove` sets it where the destination is above the source,
  and starts at the last byte; what a later round reads has then not been written yet,
  however the ranges overlap. `memcmp` clears a register first, for the flags that are left
  when nothing is compared, and compares the second range with the first.

  Proved: `memmove_copies` and `memcmp_compares`.
-/
import GnuWindows.Lib.X86
import Mathlib.Order.PiLex

namespace GnuWindows.Runtime

open GnuWindows.Lib.X86

variable {w : Nat}

/-- The operands of a statement, in their registers. -/
def operands (s : Cpu w) (di si cx : BitVec w) : Cpu w := { s with reg := { s.reg with di, si, cx } }

/-- The value returned, and the state. -/
def memmove (s : Cpu w) (dst src len : BitVec w) : BitVec w × Cpu w :=
  let (d, sr, s) :=
    if src < dst then (dst + (len - 1), src + (len - 1), block [.std] s)
    else (dst, src, s)
  (dst, block [.repmovsb, .cld] (operands s d sr len))

/-- After and before, as numbers. -/
def memcmp (s : Cpu w) (s1 s2 len : BitVec w) : Int :=
  let t := block [.clear .ax, .repzcmpsb] (operands s s1 s2 len)
  let a := !t.cf && !t.zf
  let b := t.cf
  (b.toNat : Int) - a.toNat

/-! ## Addresses -/

theorem toNat_offset {a : BitVec w} {i n : Nat} (h : a.toNat + n ≤ 2 ^ w) (hi : i < n) :
    (a + BitVec.ofNat w i).toNat = a.toNat + i := by
  rw [BitVec.toNat_add, BitVec.toNat_ofNat, Nat.mod_eq_of_lt (a := i) (by omega), Nat.mod_eq_of_lt (by omega)]

theorem offset_inj {a : BitVec w} {i j n : Nat} (h : a.toNat + n ≤ 2 ^ w) (hi : i < n) (hj : j < n)
    (heq : a + BitVec.ofNat w i = a + BitVec.ofNat w j) : i = j := by
  have hnat := congrArg BitVec.toNat heq
  rw [toNat_offset h hi, toNat_offset h hj] at hnat
  omega

/-! ## memmove -/

/-- The destination has the bytes that the source had, and nothing else has changed. -/
def Moved (m m' : BitVec w → UInt8) (dst src : BitVec w) (n : Nat) : Prop :=
  (∀ i < n, m' (dst + BitVec.ofNat w i) = m (src + BitVec.ofNat w i)) ∧
    ∀ a, (∀ i < n, a ≠ dst + BitVec.ofNat w i) → m' a = m a

variable {s : Cpu w} {dst src : BitVec w} {n : Nat}

/-- When the rounds go through the offsets in an order in which none writes what a later
    one reads, the range is moved. -/
theorem moved_of_order {e : Nat → Nat} (hdst : dst.toNat + n ≤ 2 ^ w) (hsrc : src.toNat + n ≤ 2 ^ w)
    (hsource : ∀ i < n, s.source i = src + BitVec.ofNat w (e i))
    (hdest : ∀ i < n, s.dest i = dst + BitVec.ofNat w (e i))
    (hrange : ∀ i < n, e i < n) (honto : ∀ j < n, ∃ i < n, e i = j)
    (horder : ∀ k < n, ∀ i < k, dst.toNat + e i ≠ src.toNat + e k ∧ e i ≠ e k) :
    Moved s.mem (movsb^[n] s).mem dst src n := by
  obtain ⟨hcopied, hframe⟩ := movsb_copies s fun k hk i hi => by
    have hin : i < n := hi.trans hk
    rw [hdest i hin, hdest k hk, hsource k hk]
    refine ⟨fun h => (horder k hk i hi).1 ?_, fun h => (horder k hk i hi).2 ?_⟩
    · have hnat := congrArg BitVec.toNat h
      rwa [toNat_offset hdst (hrange i hin), toNat_offset hsrc (hrange k hk)] at hnat
    · exact offset_inj hdst (hrange i hin) (hrange k hk) h
  refine ⟨fun j hj => ?_, fun a ha => hframe a fun i hi => ?_⟩
  · obtain ⟨i, hi, rfl⟩ := honto j hj
    rw [← hdest i hi, ← hsource i hi]
    exact hcopied i hi
  · rw [hdest i hi]
    exact ha (e i) (hrange i hi)

/-- Upwards, where the destination is not above the source. -/
theorem moved_forward (hdst : dst.toNat + n ≤ 2 ^ w) (hsrc : src.toNat + n ≤ 2 ^ w) (hdf : s.df = false)
    (hsi : s.reg.si = src) (hdi : s.reg.di = dst) (hle : dst.toNat ≤ src.toNat) :
    Moved s.mem (movsb^[n] s).mem dst src n := by
  have hstride : s.stride = 1 := by rw [Cpu.stride, hdf, if_neg Bool.false_ne_true]
  refine moved_of_order (e := id) hdst hsrc (fun i _ => ?_) (fun i _ => ?_) (fun i hi => hi) (fun j hj => ⟨j, hj, rfl⟩)
    fun k _ i hi => ⟨by simp only [id]; omega, by simp only [id]; omega⟩
  · rw [Cpu.source, hstride, hsi, mul_one]
    rfl
  · rw [Cpu.dest, hstride, hdi, mul_one]
    rfl

/-- From the last byte downwards. -/
theorem offset_down {a len : BitVec w} {i : Nat} (hi : i < len.toNat) :
    a + (len - 1) + (i : BitVec w) * -1 = a + BitVec.ofNat w (len.toNat - 1 - i) := by
  obtain ⟨j, hj⟩ : ∃ j, len.toNat = j + 1 + i := ⟨len.toNat - 1 - i, by omega⟩
  have hlen : len = (j : BitVec w) + 1 + (i : BitVec w) := by
    rw [← Nat.cast_succ, ← Nat.cast_add, ← hj]
    exact BitVec.eq_of_toNat_eq (by simp)
  have hoff : BitVec.ofNat w (len.toNat - 1 - i) = (j : BitVec w) := by
    rw [hj]
    exact congrArg (BitVec.ofNat w) (by omega)
  rw [hoff, hlen]
  ring

/-- Downwards, where it is. -/
theorem moved_backward {len : BitVec w} (hdst : dst.toNat + len.toNat ≤ 2 ^ w) (hsrc : src.toNat + len.toNat ≤ 2 ^ w)
    (hdf : s.df = true) (hsi : s.reg.si = src + (len - 1)) (hdi : s.reg.di = dst + (len - 1))
    (hlt : src.toNat < dst.toNat) : Moved s.mem (movsb^[len.toNat] s).mem dst src len.toNat := by
  have hstride : s.stride = -1 := by rw [Cpu.stride, hdf, if_pos rfl]
  refine moved_of_order (e := fun i => len.toNat - 1 - i) hdst hsrc (fun i hi => ?_) (fun i hi => ?_)
    (fun i hi => by omega) (fun j hj => ⟨len.toNat - 1 - j, by omega, by omega⟩)
    fun k hk i hi => ⟨by omega, by omega⟩
  · rw [Cpu.source, hstride, hsi]
    exact offset_down hi
  · rw [Cpu.dest, hstride, hdi]
    exact offset_down hi

/-- For every memory, and all ranges that do not wrap around, however they overlap: the
    destination has the bytes of the source, every other byte is as it was, and the
    direction flag is clear again. -/
theorem memmove_copies (s : Cpu w) (dst src len : BitVec w) (hdf : s.df = false)
    (hdst : dst.toNat + len.toNat ≤ 2 ^ w) (hsrc : src.toNat + len.toNat ≤ 2 ^ w) :
    (memmove s dst src len).1 = dst ∧ Moved s.mem (memmove s dst src len).2.mem dst src len.toNat ∧
      (memmove s dst src len).2.df = false := by
  unfold memmove
  by_cases hlt : src < dst
  · rw [if_pos hlt]
    exact ⟨rfl, moved_backward (s := operands (block [.std] s) _ _ len) hdst hsrc rfl rfl rfl hlt, rfl⟩
  · rw [if_neg hlt]
    exact ⟨rfl, moved_forward (s := operands s dst src len) hdst hsrc hdf rfl rfl (Nat.le_of_not_lt hlt), rfl⟩

/-- Memory that holds `abcdefgh` at `0x10`, and zeros. -/
def letters : Cpu 64 where
  reg := ⟨0, 0, 0, 0, 0⟩
  cf := false
  zf := false
  df := false
  mem := fun a => if 0x10 ≤ a ∧ a < 0x18 then (a.toNat + 0x51).toUInt8 else 0
  words := fun _ => 0
  seg := fun _ => 0
  pc := 0
  probed := []

/-- `aabcdefg` -/
theorem memmove_copies_up : Moved letters.mem (memmove letters 0x11 0x10 7).2.mem 0x11 0x10 7 :=
  (memmove_copies letters 0x11 0x10 7 rfl (by decide) (by decide)).2.1

/-! ## memcmp -/

/-- A number that says how two values compare. -/
inductive Compares {α : Type} [LT α] (x y : α) : Int → Prop
  | less (h : x < y) : Compares x y (-1)
  | same (h : x = y) : Compares x y 0
  | greater (h : y < x) : Compares x y 1

section

variable {α : Type} [LinearOrder α] {x y z : α} {c d e : Int}

theorem Compares.neg_iff (h : Compares x y c) : c < 0 ↔ x < y := by
  cases h with
  | less h => exact ⟨fun _ => h, fun _ => by decide⟩
  | same h => exact ⟨fun hc => absurd hc (by decide), fun hlt => absurd h hlt.ne⟩
  | greater h => exact ⟨fun hc => absurd hc (by decide), fun hlt => absurd h hlt.not_gt⟩

theorem Compares.swap (h : Compares x y c) : Compares y x (-c) := by
  cases h with
  | less h => exact .greater h
  | same h => exact .same h.symm
  | greater h => exact .less h

theorem Compares.pos_iff (h : Compares x y c) : 0 < c ↔ y < x := by
  rw [← h.swap.neg_iff]
  omega

theorem Compares.zero_iff (h : Compares x y c) : c = 0 ↔ x = y := by
  have hneg := h.neg_iff
  have hpos := h.pos_iff
  constructor
  · intro hc
    rcases lt_trichotomy x y with hlt | heq | hgt
    · have := hneg.mpr hlt
      omega
    · exact heq
    · have := hpos.mpr hgt
      omega
  · rintro rfl
    have hnot : ¬ c < 0 := fun hc => lt_irrefl x (hneg.mp hc)
    have hnot' : ¬ 0 < c := fun hc => lt_irrefl x (hpos.mp hc)
    omega

theorem Compares.unique (h : Compares x y c) (h' : Compares x y d) : c = d := by
  cases h with
  | less h =>
    cases h' with
    | less => rfl
    | same h' => exact absurd h' h.ne
    | greater h' => exact absurd h h'.not_gt
  | same h => exact (h'.zero_iff.mpr h).symm
  | greater h =>
    cases h' with
    | less h' => exact absurd h h'.not_gt
    | same h' => exact absurd h' h.ne'
    | greater => rfl

theorem Compares.trans (h : Compares x y c) (h' : Compares y z d) (h'' : Compares x z e) (hc : c ≤ 0) (hd : d ≤ 0) :
    e ≤ 0 ∧ (e = 0 → c = 0 ∧ d = 0) := by
  have hxy : x ≤ y := not_lt.mp fun hlt => by
    have := h.pos_iff.mpr hlt
    omega
  have hyz : y ≤ z := not_lt.mp fun hlt => by
    have := h'.pos_iff.mpr hlt
    omega
  refine ⟨Int.not_lt.mp fun he => ?_, fun he => ?_⟩
  · exact absurd (h''.pos_iff.mp he) (not_lt.mpr (hxy.trans hyz))
  · obtain rfl := h''.zero_iff.mp he
    have heq : x = y := le_antisymm hxy hyz
    exact ⟨h.zero_iff.mpr heq, h'.zero_iff.mpr heq.symm⟩

end

/-- A range of bytes, in the order of their first difference. -/
def bytes (m : BitVec w → UInt8) (a : BitVec w) (n : Nat) : Lex (Fin n → Nat) :=
  toLex fun i => (m (a + BitVec.ofNat w i)).toNat

/-- The first bytes that differ are smaller in the first range. -/
def Before (m : BitVec w → UInt8) (a b : BitVec w) (n : Nat) : Prop :=
  ∃ i < n, (∀ j < i, m (a + BitVec.ofNat w j) = m (b + BitVec.ofNat w j)) ∧
    m (a + BitVec.ofNat w i) < m (b + BitVec.ofNat w i)

theorem bytes_lt_iff (m : BitVec w → UInt8) (a b : BitVec w) (n : Nat) :
    bytes m a n < bytes m b n ↔ Before m a b n := by
  constructor
  · rintro ⟨i, heq, hlt⟩
    exact ⟨i, i.isLt, fun j hj => UInt8.toNat_inj.mp (heq ⟨j, by omega⟩ hj), hlt⟩
  · rintro ⟨i, hi, heq, hlt⟩
    exact ⟨⟨i, hi⟩, fun j hj => congrArg UInt8.toNat (heq j hj), hlt⟩

theorem bytes_eq_iff (m : BitVec w → UInt8) (a b : BitVec w) (n : Nat) :
    bytes m a n = bytes m b n ↔ ∀ i < n, m (a + BitVec.ofNat w i) = m (b + BitVec.ofNat w i) := by
  constructor
  · intro h i hi
    exact UInt8.toNat_inj.mp (congrFun h ⟨i, hi⟩)
  · intro h
    funext i
    exact congrArg UInt8.toNat (h i i.isLt)

theorem memcmp_bytes (s : Cpu w) (hdf : s.df = false) (s1 s2 len : BitVec w) :
    Compares (bytes s.mem s1 len.toNat) (bytes s.mem s2 len.toNat) (memcmp s s1 s2 len) := by
  -- the flags are those of equal ranges before the first round
  let s' := Instr.exec (operands s s1 s2 len) (.clear .ax)
  have hstride : s'.stride = 1 := by
    show (if s.df then -1 else 1 : BitVec w) = 1
    rw [hdf, if_neg Bool.false_ne_true]
  have hsource (i : Nat) : s'.source i = s2 + BitVec.ofNat w i := by
    rw [Cpu.source, hstride, mul_one]
    rfl
  have hdest (i : Nat) : s'.dest i = s1 + BitVec.ofNat w i := by
    rw [Cpu.dest, hstride, mul_one]
    rfl
  have hmemcmp : memcmp s s1 s2 len = ((repz len.toNat s').cf.toNat : Int) -
      (!(repz len.toNat s').cf && !(repz len.toNat s').zf).toNat := rfl
  rw [hmemcmp]
  rcases repz_finds len.toNat (s := s') rfl rfl with ⟨h, hcf, hzf⟩ | ⟨k, hk, h, hne, hcf, hzf⟩
  · rw [hcf, hzf]
    refine .same ((bytes_eq_iff _ _ _ _).mpr fun i hi => ?_)
    rw [← hsource, ← hdest]
    exact (h i hi).symm
  · simp only [hsource, hdest] at h hne hcf
    rw [hcf, hzf]
    by_cases hlt : s.mem (s2 + BitVec.ofNat w k) < s.mem (s1 + BitVec.ofNat w k)
    · rw [decide_eq_true (p := s'.mem _ < s'.mem _) hlt]
      exact .greater ((bytes_lt_iff _ _ _ _).mpr ⟨k, hk, h, hlt⟩)
    · rw [decide_eq_false (p := s'.mem _ < s'.mem _) hlt]
      have hgt : s.mem (s1 + BitVec.ofNat w k) < s.mem (s2 + BitVec.ofNat w k) := by
        rw [UInt8.lt_iff_toNat_lt] at hlt ⊢
        have hnat := mt UInt8.toNat_inj.mp hne
        have hnat : (s.mem (s2 + BitVec.ofNat w k)).toNat ≠ (s.mem (s1 + BitVec.ofNat w k)).toNat := hnat
        omega
      exact .less ((bytes_lt_iff _ _ _ _).mpr ⟨k, hk, fun j hj => (h j hj).symm, hgt⟩)

/-- For all ranges of bytes of a length: the number is negative, positive or zero as the
    first bytes that differ are smaller or greater in the first range, or there are none.
    Its sign is antisymmetric and transitive. -/
theorem memcmp_compares (s : Cpu w) (hdf : s.df = false) (len : BitVec w) :
    (∀ s1 s2, (memcmp s s1 s2 len < 0 ↔ Before s.mem s1 s2 len.toNat) ∧
      (0 < memcmp s s1 s2 len ↔ Before s.mem s2 s1 len.toNat) ∧
      (memcmp s s1 s2 len = 0 ↔ ∀ i < len.toNat, s.mem (s1 + BitVec.ofNat w i) = s.mem (s2 + BitVec.ofNat w i))) ∧
    (∀ s1 s2, memcmp s s2 s1 len = -memcmp s s1 s2 len) ∧
    ∀ s1 s2 s3, memcmp s s1 s2 len ≤ 0 → memcmp s s2 s3 len ≤ 0 → memcmp s s1 s3 len ≤ 0 ∧
      (memcmp s s1 s3 len = 0 → memcmp s s1 s2 len = 0 ∧ memcmp s s2 s3 len = 0) := by
  have hcmp (s1 s2 : BitVec w) := memcmp_bytes s hdf s1 s2 len
  refine ⟨fun s1 s2 => ⟨?_, ?_, ?_⟩, fun s1 s2 => ?_, fun s1 s2 s3 => ?_⟩
  · exact (hcmp s1 s2).neg_iff.trans (bytes_lt_iff _ _ _ _)
  · exact (hcmp s1 s2).pos_iff.trans (bytes_lt_iff _ _ _ _)
  · exact (hcmp s1 s2).zero_iff.trans (bytes_eq_iff _ _ _ _)
  · exact (hcmp s2 s1).unique (hcmp s1 s2).swap
  · exact (hcmp s1 s2).trans (hcmp s2 s3) (hcmp s1 s3)

/-- `bc` and `cd` -/
theorem memcmp_compares_letters : memcmp letters 0x11 0x12 2 < 0 ↔ Before letters.mem 0x11 0x12 2 :=
  ((memcmp_compares letters rfl 2).1 0x11 0x12).1

end GnuWindows.Runtime
