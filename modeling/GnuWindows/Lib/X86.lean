/-
  GnuWindows.Lib.X86 — a part of the x86 for routines without calls.

  Words and addresses have `w` bits. Of memory, its bytes and the words of the stack are
  kept apart. A routine ends at `ret` or after its last instruction. A string instruction
  with a prefix is one instruction, and its rounds are those of the count.

  Proved: what a routine ends in is unique (`Ends.unique`), what the rounds of `movsb` copy
  when none writes where a later one reads or writes (`movsb_copies`), and what the rounds
  of `repz cmpsb` find (`repz_finds`). Of `stosb` and `repne scasb`, which no routine here
  has as one of several instructions, what they store (`stosb_fills`) and what they find
  (`repnz_finds`).
-/
import Mathlib.Data.BitVec
import Mathlib.Logic.Function.Iterate
import Mathlib.Tactic.Ring

namespace GnuWindows.Lib.X86

inductive Reg where
  | ax
  | cx
  | sp
  | si
  | di
  deriving DecidableEq

structure Regs (w : Nat) where
  ax : BitVec w
  cx : BitVec w
  sp : BitVec w
  si : BitVec w
  di : BitVec w

variable {w : Nat}

def Regs.get (r : Regs w) : Reg → BitVec w
  | .ax => r.ax
  | .cx => r.cx
  | .sp => r.sp
  | .si => r.si
  | .di => r.di

def Regs.set (r : Regs w) (v : BitVec w) : Reg → Regs w
  | .ax => { r with ax := v }
  | .cx => { r with cx := v }
  | .sp => { r with sp := v }
  | .si => { r with si := v }
  | .di => { r with di := v }

structure Cpu (w : Nat) where
  reg : Regs w
  /-- Carry. -/
  cf : Bool
  /-- Zero. -/
  zf : Bool
  /-- Direction: whether string instructions go down. -/
  df : Bool
  mem : BitVec w → UInt8
  /-- The words of the stack. -/
  words : BitVec w → BitVec w
  /-- The words of the thread's block, by their offset. -/
  seg : Nat → BitVec w
  /-- The index of the next instruction. -/
  pc : Nat
  /-- Where memory has been tested, in order. -/
  probed : List (BitVec w)

/-- In the order of operands of the assembler. -/
inductive Instr (w : Nat) where
  | push (src : Reg)
  | pop (dst : Reg)
  | movseg (offset : Nat) (dst : Reg)
  | neg (dst : Reg)
  | add (src dst : Reg)
  | sub (imm : BitVec w) (dst : Reg)
  /-- `xor` of a register and itself. -/
  | clear (dst : Reg)
  /-- `test` of a register and the four bytes that another points to. -/
  | test (src base : Reg)
  | cmp (src dst : Reg)
  | jb (label : Nat)
  | ja (label : Nat)
  | cld
  | std
  | repmovsb
  | repzcmpsb
  | ret

/-! ## String instructions -/

/-- What the pointers of a string instruction go by. -/
def Cpu.stride (s : Cpu w) : BitVec w := if s.df then -1 else 1

/-- Both pointers go on, and the count goes down. -/
def Cpu.advance (s : Cpu w) : Regs w :=
  { s.reg with si := s.reg.si + s.stride, di := s.reg.di + s.stride, cx := s.reg.cx - 1 }

def movsb (s : Cpu w) : Cpu w :=
  { s with reg := s.advance, mem := Function.update s.mem s.reg.di (s.mem s.reg.si) }

/-- The source is compared with the destination. -/
def cmpsb (s : Cpu w) : Cpu w :=
  { s with reg := s.advance, cf := s.mem s.reg.si < s.mem s.reg.di, zf := s.mem s.reg.si = s.mem s.reg.di }

/-- Rounds that go on while the bytes are equal. -/
def repz : Nat → Cpu w → Cpu w
  | 0, s => s
  | n + 1, s =>
    let s := cmpsb s
    if s.zf then repz n s else s

/-! ## Instructions -/

def load32 (mem : BitVec w → UInt8) (a : BitVec w) : BitVec 32 :=
  (mem (a + 3)).toBitVec ++ (mem (a + 2)).toBitVec ++ (mem (a + 1)).toBitVec ++ (mem a).toBitVec

/-- The bytes of a word. -/
def wordsize (w : Nat) : BitVec w := BitVec.ofNat w (w / 8)

def Instr.exec (s : Cpu w) : Instr w → Cpu w
  | push src =>
    let sp := s.reg.sp - wordsize w
    { s with words := Function.update s.words sp (s.reg.get src), reg := { s.reg with sp } }
  | pop dst => { s with reg := { s.reg with sp := s.reg.sp + wordsize w }.set (s.words s.reg.sp) dst }
  | movseg offset dst => { s with reg := s.reg.set (s.seg offset) dst }
  | neg dst =>
    let v := s.reg.get dst
    { s with reg := s.reg.set (-v) dst, cf := v ≠ 0, zf := v = 0 }
  | add src dst =>
    let v := s.reg.get dst + s.reg.get src
    { s with reg := s.reg.set v dst, cf := 2 ^ w ≤ (s.reg.get dst).toNat + (s.reg.get src).toNat, zf := v = 0 }
  | sub imm dst =>
    let v := s.reg.get dst
    { s with reg := s.reg.set (v - imm) dst, cf := v < imm, zf := v = imm }
  | clear dst => { s with reg := s.reg.set 0 dst, cf := false, zf := true }
  | test src base =>
    let v := (s.reg.get src).setWidth 32 &&& load32 s.mem (s.reg.get base)
    { s with cf := false, zf := v = 0, probed := s.probed ++ [s.reg.get base] }
  | cmp src dst => { s with cf := s.reg.get dst < s.reg.get src, zf := s.reg.get dst = s.reg.get src }
  | jb label => if s.cf then { s with pc := label } else s
  | ja label => if !s.cf && !s.zf then { s with pc := label } else s
  | cld => { s with df := false }
  | std => { s with df := true }
  | repmovsb => movsb^[s.reg.cx.toNat] s
  | repzcmpsb => repz s.reg.cx.toNat s
  | ret => s

/-- A statement of instructions without jumps. -/
def block (code : List (Instr w)) (s : Cpu w) : Cpu w := code.foldl Instr.exec s

/-- `none` at the end of the routine. -/
def step (code : List (Instr w)) (s : Cpu w) : Option (Cpu w) :=
  match code[s.pc]? with
  | none | some .ret => none
  | some i => some (i.exec { s with pc := s.pc + 1 })

/-- The state at the end, if it is reached within so many steps. -/
def run (code : List (Instr w)) : Nat → Cpu w → Option (Cpu w)
  | 0, _ => none
  | n + 1, s =>
    match step code s with
    | none => some s
    | some s => run code n s

/-- The routine ends, in this state. -/
def Ends (code : List (Instr w)) (s t : Cpu w) : Prop := ∃ n, run code n s = some t

variable {code : List (Instr w)} {s s' t t' : Cpu w}

theorem Ends.here (h : step code s = none) : Ends code s s := ⟨1, by rw [run, h]⟩

theorem Ends.after (h : step code s = some s') (ht : Ends code s' t) : Ends code s t := by
  obtain ⟨n, hn⟩ := ht
  exact ⟨n + 1, by rw [run, h]; exact hn⟩

theorem Ends.unique (h : Ends code s t) (h' : Ends code s t') : t = t' := by
  obtain ⟨n, hn⟩ := h
  obtain ⟨m, hm⟩ := h'
  induction n generalizing s m with
  | zero => cases hn
  | succ n ih =>
    cases m with
    | zero => cases hm
    | succ m =>
      rw [run] at hn hm
      cases hs : step code s with
      | none =>
        rw [hs] at hn hm
        exact Option.some.inj (hn.symm.trans hm)
      | some s' =>
        rw [hs] at hn hm
        exact ih hn m hm

/-! ## Copying -/

/-- Where a later round reads. -/
def Cpu.source (s : Cpu w) (i : Nat) : BitVec w := s.reg.si + i * s.stride

/-- Where a later round writes, or reads what is compared. -/
def Cpu.dest (s : Cpu w) (i : Nat) : BitVec w := s.reg.di + i * s.stride

theorem movsb_df (n : Nat) (s : Cpu w) : (movsb^[n] s).df = s.df := by
  induction n generalizing s with
  | zero => rfl
  | succ n ih => exact ih (movsb s)

theorem movsb_regs (n : Nat) (s : Cpu w) :
    (movsb^[n] s).reg.si = s.source n ∧ (movsb^[n] s).reg.di = s.dest n := by
  induction n with
  | zero => simp [Cpu.source, Cpu.dest]
  | succ n ih =>
    obtain ⟨hsi, hdi⟩ := ih
    have hstride : (movsb^[n] s).stride = s.stride := by rw [Cpu.stride, movsb_df, Cpu.stride]
    rw [Function.iterate_succ_apply']
    constructor
    · show (movsb^[n] s).reg.si + (movsb^[n] s).stride = s.source (n + 1)
      rw [hsi, hstride, Cpu.source, Cpu.source, Nat.cast_succ]
      ring
    · show (movsb^[n] s).reg.di + (movsb^[n] s).stride = s.dest (n + 1)
      rw [hdi, hstride, Cpu.dest, Cpu.dest, Nat.cast_succ]
      ring

/-- Where no round writes what a later one reads or where a later one writes, each byte is
    copied as it was. Other bytes are as they were. -/
theorem movsb_copies {n : Nat} (s : Cpu w)
    (hfresh : ∀ k < n, ∀ i < k, s.dest i ≠ s.source k ∧ s.dest i ≠ s.dest k) :
    (∀ i < n, (movsb^[n] s).mem (s.dest i) = s.mem (s.source i)) ∧
      ∀ a, (∀ i < n, a ≠ s.dest i) → (movsb^[n] s).mem a = s.mem a := by
  induction n with
  | zero => exact ⟨fun i hi => absurd hi (Nat.not_lt_zero i), fun _ _ => rfl⟩
  | succ n ih =>
    obtain ⟨hcopied, hframe⟩ := ih fun k hk => hfresh k (by omega)
    obtain ⟨hsi, hdi⟩ := movsb_regs n s
    have hmem : (movsb^[n + 1] s).mem = Function.update (movsb^[n] s).mem (s.dest n) (s.mem (s.source n)) := by
      have hread : (movsb^[n] s).mem (s.source n) = s.mem (s.source n) :=
        hframe _ fun i hi => (hfresh n (Nat.lt_succ_self n) i hi).1.symm
      rw [Function.iterate_succ_apply', movsb, hsi, hdi, hread]
    rw [hmem]
    refine ⟨fun i hi => ?_, fun a ha => ?_⟩
    · rcases Nat.lt_succ_iff_lt_or_eq.mp hi with hi | rfl
      · rw [Function.update_of_ne (hfresh n (Nat.lt_succ_self n) i hi).2, hcopied i hi]
      · exact Function.update_self _ _ _
    · rw [Function.update_of_ne (ha n (Nat.lt_succ_self n))]
      exact hframe a fun i hi => ha i (by omega)

/-! ## Comparing -/

theorem cmpsb_source (s : Cpu w) (i : Nat) : (cmpsb s).source i = s.source (i + 1) := by
  show s.reg.si + s.stride + i * s.stride = s.reg.si + (i + 1 : Nat) * s.stride
  rw [Nat.cast_succ]
  ring

theorem cmpsb_dest (s : Cpu w) (i : Nat) : (cmpsb s).dest i = s.dest (i + 1) := by
  show s.reg.di + s.stride + i * s.stride = s.reg.di + (i + 1 : Nat) * s.stride
  rw [Nat.cast_succ]
  ring

/-- The flags after `n` rounds: those of before when there is no difference, and otherwise
    those of the first one. -/
inductive Found (s : Cpu w) (n : Nat) (t : Cpu w) : Prop
  | equal (h : ∀ i < n, s.mem (s.source i) = s.mem (s.dest i)) (hcf : t.cf = false) (hzf : t.zf = true)
  | differ (k : Nat) (hk : k < n) (h : ∀ i < k, s.mem (s.source i) = s.mem (s.dest i))
      (hne : s.mem (s.source k) ≠ s.mem (s.dest k)) (hcf : t.cf = decide (s.mem (s.source k) < s.mem (s.dest k)))
      (hzf : t.zf = false)

theorem repz_finds (n : Nat) {s : Cpu w} (hcf : s.cf = false) (hzf : s.zf = true) : Found s n (repz n s) := by
  induction n generalizing s with
  | zero => exact .equal (fun i hi => absurd hi (Nat.not_lt_zero i)) hcf hzf
  | succ n ih =>
    have hsource : s.source 0 = s.reg.si := by simp [Cpu.source]
    have hdest : s.dest 0 = s.reg.di := by simp [Cpu.dest]
    rw [repz]
    by_cases heq : s.mem (s.source 0) = s.mem (s.dest 0)
    · have hgo : (cmpsb s).zf = true := by
        rw [hsource, hdest] at heq
        exact decide_eq_true heq
      have hlt : (cmpsb s).cf = false := by
        rw [hsource, hdest] at heq
        exact decide_eq_false (by rw [heq]; exact UInt8.lt_irrefl _)
      have hfirst {k : Nat} (h : ∀ i < k, s.mem (s.source (i + 1)) = s.mem (s.dest (i + 1))) :
          ∀ i < k + 1, s.mem (s.source i) = s.mem (s.dest i) := by
        intro i hi
        cases i with
        | zero => exact heq
        | succ i => exact h i (by omega)
      rw [if_pos hgo]
      rcases ih hlt hgo with ⟨h, hcf, hzf⟩ | ⟨k, hk, h, hne, hcf, hzf⟩
      · refine .equal (hfirst fun i hi => ?_) hcf hzf
        have hi := h i hi
        rwa [cmpsb_source, cmpsb_dest] at hi
      · rw [cmpsb_source, cmpsb_dest] at hne hcf
        refine .differ (k + 1) (by omega) (hfirst fun i hi => ?_) hne hcf hzf
        have hi := h i hi
        rwa [cmpsb_source, cmpsb_dest] at hi
    · have hstop : (cmpsb s).zf = false := by
        rw [hsource, hdest] at heq
        exact decide_eq_false heq
      rw [hstop, if_neg Bool.false_ne_true]
      refine .differ 0 (Nat.succ_pos n) (fun i hi => absurd hi (Nat.not_lt_zero i)) heq ?_ hstop
      rw [hsource, hdest]
      rfl

/-! ## Filling -/

/-- The low byte of `ax`. -/
def Cpu.al (s : Cpu w) : UInt8 := ⟨s.reg.ax.setWidth 8⟩

def stosb (s : Cpu w) : Cpu w :=
  { s with
    reg := { s.reg with di := s.reg.di + s.stride, cx := s.reg.cx - 1 }
    mem := Function.update s.mem s.reg.di s.al }

theorem stosb_regs (n : Nat) (s : Cpu w) : (stosb^[n] s).reg.di = s.dest n ∧ (stosb^[n] s).reg.ax = s.reg.ax ∧
    (stosb^[n] s).df = s.df := by
  induction n with
  | zero => simp [Cpu.dest]
  | succ n ih =>
    obtain ⟨hdi, hax, hdf⟩ := ih
    have hstride : (stosb^[n] s).stride = s.stride := by rw [Cpu.stride, hdf, Cpu.stride]
    rw [Function.iterate_succ_apply']
    refine ⟨?_, hax, hdf⟩
    show (stosb^[n] s).reg.di + (stosb^[n] s).stride = s.dest (n + 1)
    rw [hdi, hstride, Cpu.dest, Cpu.dest, Nat.cast_succ]
    ring

/-- The rounds store one byte, wherever they go. -/
theorem stosb_fills (n : Nat) (s : Cpu w) :
    (∀ i < n, (stosb^[n] s).mem (s.dest i) = s.al) ∧ ∀ a, (∀ i < n, a ≠ s.dest i) → (stosb^[n] s).mem a = s.mem a := by
  induction n with
  | zero => exact ⟨fun i hi => absurd hi (Nat.not_lt_zero i), fun _ _ => rfl⟩
  | succ n ih =>
    obtain ⟨hfilled, hframe⟩ := ih
    obtain ⟨hdi, hax, -⟩ := stosb_regs n s
    have hmem : (stosb^[n + 1] s).mem = Function.update (stosb^[n] s).mem (s.dest n) s.al := by
      rw [Function.iterate_succ_apply', stosb, Cpu.al, hdi, hax, ← Cpu.al]
    rw [hmem]
    refine ⟨fun i hi => ?_, fun a ha => ?_⟩
    · by_cases heq : s.dest i = s.dest n
      · rw [heq, Function.update_self]
      · have hlt : i < n := lt_of_le_of_ne (Nat.lt_succ_iff.mp hi) (by rintro rfl; exact heq rfl)
        rw [Function.update_of_ne heq, hfilled i hlt]
    · rw [Function.update_of_ne (ha n (Nat.lt_succ_self n))]
      exact hframe a fun i hi => ha i (by omega)

/-! ## Scanning -/

def scasb (s : Cpu w) : Cpu w :=
  { s with
    reg := { s.reg with di := s.reg.di + s.stride, cx := s.reg.cx - 1 }
    cf := s.al < s.mem s.reg.di
    zf := s.al = s.mem s.reg.di }

/-- Rounds that go on while the bytes differ. -/
def repnz : Nat → Cpu w → Cpu w
  | 0, s => s
  | n + 1, s =>
    let s := scasb s
    if s.zf then s else repnz n s

theorem scasb_dest (s : Cpu w) (i : Nat) : (scasb s).dest i = s.dest (i + 1) := by
  show s.reg.di + s.stride + i * s.stride = s.reg.di + (i + 1 : Nat) * s.stride
  rw [Nat.cast_succ]
  ring

/-- The count goes down by one for each byte up to the first that is found. -/
theorem repnz_finds {n k : Nat} (hk : k < n) {s : Cpu w} (hbefore : ∀ i < k, s.mem (s.dest i) ≠ s.al)
    (hfound : s.mem (s.dest k) = s.al) :
    (repnz n s).reg.cx = s.reg.cx - (k + 1 : Nat) ∧ (repnz n s).mem = s.mem := by
  induction k generalizing n s with
  | zero =>
    obtain ⟨n, rfl⟩ := Nat.exists_eq_add_of_lt hk
    have hdest : s.dest 0 = s.reg.di := by simp [Cpu.dest]
    have hstop : (scasb s).zf = true := decide_eq_true (by rw [← hfound, hdest])
    rw [repnz, if_pos hstop, Nat.cast_one]
    exact ⟨rfl, rfl⟩
  | succ k ih =>
    obtain ⟨n, rfl⟩ : ∃ m, n = m + 1 := ⟨n - 1, by omega⟩
    have hdest : s.dest 0 = s.reg.di := by simp [Cpu.dest]
    have hgo : (scasb s).zf = false := decide_eq_false fun h => hbefore 0 (Nat.succ_pos k) (by rw [hdest, h])
    rw [repnz, hgo, if_neg Bool.false_ne_true]
    obtain ⟨hcx, hmem⟩ := ih (n := n) (s := scasb s) (by omega)
      (fun i hi => by
        rw [scasb_dest]
        exact hbefore (i + 1) (by omega))
      (by
        rw [scasb_dest]
        exact hfound)
    refine ⟨hcx.trans ?_, hmem⟩
    show s.reg.cx - 1 - (k + 1 : Nat) = _
    rw [Nat.cast_succ (k + 1)]
    ring

end GnuWindows.Lib.X86
