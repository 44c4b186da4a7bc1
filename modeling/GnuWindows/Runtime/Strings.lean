/-
  GnuWindows.Runtime.Strings — filling, copying forward and measuring (`memset`, `memcpy`,
  `strlen` of libmemory.c).

  Each is one string instruction. `memcpy` always goes upwards: where the destination begins
  inside the source, a round reads what an earlier one has written, and the bytes up to the
  destination are repeated. `strlen` starts from the largest count, and the length is what
  its complement and the round of the terminator leave.

  Proved:
  - `memset_fills`: a range of one byte, and nothing else.
  - `movsb_repeats`, `memcpy_moves_iff`: what is copied, and when it is what `memmove`
    gives.
  - `strlen_counts`: the offset of the first zero.
-/
import GnuWindows.Runtime.Memory

namespace GnuWindows.Runtime

open GnuWindows.Lib.X86

variable {w : Nat}

/-- The operands of a statement without a source. -/
def operandsax (s : Cpu w) (di cx ax : BitVec w) : Cpu w := { s with reg := { s.reg with di, cx, ax } }

/-- The value returned, and the state; of `c` the low byte is in `al`. -/
def memset (s : Cpu w) (dst : BitVec w) (c : BitVec 32) (len : BitVec w) : BitVec w × Cpu w :=
  (dst, stosb^[len.toNat] (operandsax s dst len (c.setWidth w)))

/-- The value returned, and the state. -/
def memcpy (s : Cpu w) (dst src len : BitVec w) : BitVec w × Cpu w :=
  (dst, block [.repmovsb] (operands s dst src len))

def strlen (s : Cpu w) (str : BitVec w) : BitVec w :=
  let n : BitVec w := -1
  let n := (repnz n.toNat (operandsax s str n 0)).reg.cx;
  -n - 2

variable {s : Cpu w} {dst src : BitVec w} {n : Nat}

theorem stride_up (hdf : s.df = false) : s.stride = 1 := by rw [Cpu.stride, hdf, if_neg Bool.false_ne_true]

theorem dest_up (hdf : s.df = false) (i : Nat) : s.dest i = s.reg.di + BitVec.ofNat w i := by
  rw [Cpu.dest, stride_up hdf, mul_one]
  rfl

theorem source_up (hdf : s.df = false) (i : Nat) : s.source i = s.reg.si + BitVec.ofNat w i := by
  rw [Cpu.source, stride_up hdf, mul_one]
  rfl

/-! ## memset -/

/-- For every memory and range: the range has the low byte of `c`, and every other byte is
    as it was. -/
theorem memset_fills (s : Cpu w) (hdf : s.df = false) (hw : 8 ≤ w) (dst : BitVec w) (c : BitVec 32) (len : BitVec w) :
    (memset s dst c len).1 = dst ∧
      (∀ i < len.toNat, (memset s dst c len).2.mem (dst + BitVec.ofNat w i) = ⟨c.setWidth 8⟩) ∧
      ∀ a, (∀ i < len.toNat, a ≠ dst + BitVec.ofNat w i) → (memset s dst c len).2.mem a = s.mem a := by
  let s' := operandsax s dst len (c.setWidth w)
  have hal : s'.al = ⟨c.setWidth 8⟩ := by
    show (⟨(c.setWidth w).setWidth 8⟩ : UInt8) = _
    rw [BitVec.setWidth_setWidth_of_le c hw]
  have hdest (i : Nat) : s'.dest i = dst + BitVec.ofNat w i := dest_up (s := s') hdf i
  obtain ⟨hfilled, hframe⟩ := stosb_fills len.toNat s'
  refine ⟨rfl, fun i hi => ?_, fun a ha => hframe a fun i hi => ?_⟩
  · rw [← hal, ← hfilled i hi, hdest]
    rfl
  · rw [hdest]
    exact ha i hi

/-! ## memcpy -/

/-- Where the destination is above the source, the bytes between them are repeated. -/
theorem movsb_repeats (hdf : s.df = false) (hdst : s.reg.di.toNat + n ≤ 2 ^ w) (hsrc : s.reg.si.toNat + n ≤ 2 ^ w)
    {d : Nat} (hd : s.reg.di.toNat = s.reg.si.toNat + d) (hpos : 0 < d) :
    (∀ i < n, (movsb^[n] s).mem (s.reg.di + BitVec.ofNat w i) = s.mem (s.reg.si + BitVec.ofNat w (i % d))) ∧
      ∀ a, (∀ i < n, a ≠ s.reg.di + BitVec.ofNat w i) → (movsb^[n] s).mem a = s.mem a := by
  induction n with
  | zero => exact ⟨fun i hi => absurd hi (Nat.not_lt_zero i), fun _ _ => rfl⟩
  | succ n ih =>
    obtain ⟨hcopied, hframe⟩ := ih (by omega) (by omega)
    obtain ⟨hsi, hdi⟩ := movsb_regs n s
    rw [source_up hdf] at hsi
    rw [dest_up hdf] at hdi
    -- the byte that the last round reads is one of the source, or was written before
    have hread : (movsb^[n] s).mem (s.reg.si + BitVec.ofNat w n) = s.mem (s.reg.si + BitVec.ofNat w (n % d)) := by
      by_cases hlt : n < d
      · rw [Nat.mod_eq_of_lt hlt]
        refine hframe _ fun i hi heq => ?_
        have hnat := congrArg BitVec.toNat heq
        rw [toNat_offset hsrc (Nat.lt_succ_self n), toNat_offset hdst (by omega)] at hnat
        omega
      · have hback : s.reg.si + BitVec.ofNat w n = s.reg.di + BitVec.ofNat w (n - d) := by
          apply BitVec.eq_of_toNat_eq
          rw [toNat_offset hsrc (Nat.lt_succ_self n), toNat_offset hdst (by omega)]
          omega
        rw [hback, hcopied (n - d) (by omega), ← Nat.mod_eq_sub_mod (Nat.le_of_not_lt hlt)]
    have hmem : (movsb^[n + 1] s).mem = Function.update (movsb^[n] s).mem (s.reg.di + BitVec.ofNat w n)
        (s.mem (s.reg.si + BitVec.ofNat w (n % d))) := by
      rw [Function.iterate_succ_apply', movsb, hsi, hdi, hread]
    rw [hmem]
    refine ⟨fun i hi => ?_, fun a ha => ?_⟩
    · rcases Nat.lt_succ_iff_lt_or_eq.mp hi with hi | rfl
      · rw [Function.update_of_ne fun heq => ?_, hcopied i hi]
        have := offset_inj hdst (by omega) (Nat.lt_succ_self n) heq
        omega
      · exact Function.update_self _ _ _
    · rw [Function.update_of_ne (ha n (Nat.lt_succ_self n))]
      exact hframe a fun i hi => ha i (by omega)

/-- For every memory and all ranges that do not wrap around: `memcpy` gives what `memmove`
    does exactly when the destination is not above the source, or the source repeats the
    bytes up to the destination, as it does where the ranges are apart. -/
theorem memcpy_moves_iff (s : Cpu w) (dst src len : BitVec w) (hdf : s.df = false)
    (hdst : dst.toNat + len.toNat ≤ 2 ^ w) (hsrc : src.toNat + len.toNat ≤ 2 ^ w) :
    (memcpy s dst src len).1 = dst ∧ (memcpy s dst src len).2.df = false ∧
      (Moved s.mem (memcpy s dst src len).2.mem dst src len.toNat ↔ dst.toNat ≤ src.toNat ∨
        ∀ i < len.toNat, s.mem (src + BitVec.ofNat w i) =
          s.mem (src + BitVec.ofNat w (i % (dst.toNat - src.toNat)))) := by
  refine ⟨rfl, (movsb_df _ _).trans hdf, ?_⟩
  by_cases hle : dst.toNat ≤ src.toNat
  · exact iff_of_true (moved_forward (s := operands s dst src len) hdst hsrc hdf rfl rfl hle) (.inl hle)
  · obtain ⟨hcopied, hframe⟩ := movsb_repeats (s := operands s dst src len) hdf hdst hsrc
      (show dst.toNat = src.toNat + (dst.toNat - src.toNat) by omega) (by omega)
    rw [or_iff_right hle]
    constructor
    · exact fun h i hi => (h.1 i hi).symm.trans (hcopied i hi)
    · exact fun h => ⟨fun i hi => (hcopied i hi).trans (h i hi).symm, hframe⟩

/-- `aaaaaaaa`: the letters up to the destination are repeated. -/
theorem memcpy_moves_iff_up : Moved letters.mem (memcpy letters 0x11 0x10 7).2.mem 0x11 0x10 7 ↔
    (0x11 : BitVec 64).toNat ≤ (0x10 : BitVec 64).toNat ∨ ∀ i < 7, letters.mem (0x10 + BitVec.ofNat 64 i) =
      letters.mem (0x10 + BitVec.ofNat 64 (i % 1)) :=
  (memcpy_moves_iff letters 0x11 0x10 7 rfl (by decide) (by decide)).2.2

/-! ## strlen -/

/-- For every string in memory, wherever it is and of any length that has an address: the
    length is the offset of its first zero. -/
theorem strlen_counts (s : Cpu w) (hdf : s.df = false) (str : BitVec w) {k : Nat} (hk : k + 1 < 2 ^ w)
    (hbefore : ∀ i < k, s.mem (str + BitVec.ofNat w i) ≠ 0) (hzero : s.mem (str + BitVec.ofNat w k) = 0) :
    (strlen s str).toNat = k := by
  let s' := operandsax s str (-1) 0
  have hal : s'.al = 0 := by
    show (⟨(0#w).setWidth 8⟩ : UInt8) = 0
    rw [BitVec.setWidth_zero]
    rfl
  have hdest (i : Nat) : s'.dest i = str + BitVec.ofNat w i := dest_up (s := s') hdf i
  have hmost : (-1 : BitVec w).toNat = 2 ^ w - 1 :=
    BitVec.toNat_allOnes ▸ congrArg BitVec.toNat BitVec.neg_one_eq_allOnes
  have hrounds : k < (-1 : BitVec w).toNat := by omega
  obtain ⟨hcx, -⟩ := repnz_finds hrounds (s := s')
    (fun i hi => by
      rw [hdest, hal]
      exact hbefore i hi)
    (by
      rw [hdest, hal]
      exact hzero)
  have hlen : strlen s str = (k : BitVec w) := by
    show -(repnz (-1 : BitVec w).toNat s').reg.cx - 2 = _
    rw [hcx, Nat.cast_succ]
    show -(-1 - ((k : BitVec w) + 1)) - 2 = _
    ring
  rw [hlen]
  exact BitVec.toNat_ofNat k w ▸ Nat.mod_eq_of_lt (by omega)

/-- `abcdefgh` -/
theorem strlen_counts_letters : (strlen letters 0x10).toNat = 8 :=
  strlen_counts letters rfl 0x10 (by decide) (by decide) (by decide)

end GnuWindows.Runtime
