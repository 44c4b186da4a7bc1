/-
  GnuWindows.Runtime.Chkstk386 — stack probes (`___chkstk_ms` and `__chkstk` of
  libchkstk.S, for i386).

  The first is the amd64 routine with words of four bytes. The second also allocates the
  frame: it puts the stack pointer at its low address and leaves through the return address
  that is above it. Whether the frame goes below address 0 is read from a comparison of its
  low address with the stack pointer, which has the return address and a saved register
  below the frame's end. A frame of these eight bytes or less is taken for one that
  overflows, as is one that does: all pages down to address 0 are touched, and the stack
  pointer is null.

  Proved:
  - `loop_reaches`: what the loop of both touches.
  - `chkstk_ms386_ends`: the first behaves as on amd64.
  - `chkstk_allocates_iff`: the second allocates the frame exactly when it has more than
    eight bytes and fits above address 0; else it leaves a null stack pointer.
-/
import GnuWindows.Runtime.Chkstk
import Mathlib.Logic.Relation

namespace GnuWindows.Runtime

open GnuWindows.Lib.X86

/-- The instructions of the amd64 routine, and those that only `__chkstk` has. -/
inductive Op where
  | plain (i : Instr 32)
  | lea (disp : BitVec 32) (base index dst : Reg)
  | xchg (src dst : Reg)
  /-- A jump to the word that a register points to. It leaves the routine. -/
  | jmp (base : Reg)

def Op.exec (s : Cpu 32) : Op → Cpu 32
  | plain i => i.exec s
  | lea disp base index dst => { s with reg := s.reg.set (s.reg.get base + s.reg.get index + disp) dst }
  | xchg src dst => { s with reg := (s.reg.set (s.reg.get dst) src).set (s.reg.get src) dst }
  | jmp _ => s

/-- `none` at the end of the routine. -/
def step386 (code : List Op) (s : Cpu 32) : Option (Cpu 32) :=
  match code[s.pc]? with
  | none | some (.plain .ret) | some (.jmp _) => none
  | some op => some (op.exec { s with pc := s.pc + 1 })

/-- With the size of the frame in `ax`, and the low address of the stack in the thread's
    block. -/
def chkstk_ms386 : List Op :=
  [.plain (.push .ax),
   .plain (.push .cx),
   .plain (.movseg 0x08 .cx),
   .plain (.neg .ax),
   .plain (.add .sp .ax),
   .plain (.jb 9),
   .plain (.clear .ax),
   .plain (.sub 0x1000 .cx),
   .plain (.test .ax .cx),
   .plain (.cmp .ax .cx),
   .plain (.ja 7),
   .plain (.pop .cx),
   .plain (.pop .ax),
   .plain .ret]

def chkstk : List Op :=
  [.plain (.push .cx),
   .plain (.movseg 0x08 .cx),
   .plain (.neg .ax),
   .lea 8 .sp .ax .ax,
   .plain (.cmp .sp .ax),
   .plain (.jb 9),
   .plain (.clear .ax),
   .plain (.sub 0x1000 .cx),
   .plain (.test .ax .cx),
   .plain (.cmp .ax .cx),
   .plain (.ja 7),
   .plain (.pop .cx),
   .xchg .ax .sp,
   .jmp .ax]

/-- From one state to another, by any number of instructions. -/
def Reaches (code : List Op) : Cpu 32 → Cpu 32 → Prop := Relation.ReflTransGen fun s t => step386 code s = some t

/-- The routine ends, in this state. -/
def Ends386 (code : List Op) (s t : Cpu 32) : Prop := Reaches code s t ∧ step386 code t = none

variable {code : List Op} {s t u : Cpu 32}

theorem Reaches.after (h : step386 code s = some t) (hu : Reaches code t u) : Reaches code s u := .head h hu

theorem Ends386.unique (h : Ends386 code s t) (h' : Ends386 code s u) : t = u := by
  have hright : Relator.RightUnique fun s t => step386 code s = some t := fun _ _ _ ha hb =>
    Option.some.inj (ha.symm.trans hb)
  have hend {a b : Cpu 32} (ha : step386 code a = none) (hab : Reaches code a b) : a = b := by
    rcases hab.cases_head with heq | ⟨c, hc, -⟩
    · exact heq
    · rw [ha] at hc
      cases hc
  rcases Relation.ReflTransGen.total_of_right_unique hright h.1 h'.1 with htu | hut
  · exact hend h.2 htu
  · exact (hend h'.2 hut).symm

/-! ## The loop -/

/-- Both routines have the same loop, at the same place, and the same jump into it. -/
structure Probing (code : List Op) : Prop where
  jb : code[5]? = some (.plain (.jb 9))
  clear : code[6]? = some (.plain (.clear .ax))
  sub : code[7]? = some (.plain (.sub 0x1000 .cx))
  test : code[8]? = some (.plain (.test .ax .cx))
  cmp : code[9]? = some (.plain (.cmp .ax .cx))
  ja : code[10]? = some (.plain (.ja 7))

section

variable {r : Regs 32} {df : Bool} {mem : BitVec 32 → UInt8} {words : BitVec 32 → BitVec 32}
  {seg : Nat → BitVec 32} {P : List (BitVec 32)}

variable (r df mem words seg P) in
/-- The page below is touched, and the comparison comes next. -/
theorem touch_reaches (h : Probing code) (cf zf : Bool) : ∃ cf' zf',
    Reaches code ⟨r, cf, zf, df, mem, words, seg, 7, P⟩
      ⟨{ r with cx := r.cx - 0x1000 }, cf', zf', df, mem, words, seg, 9, P ++ [r.cx - 0x1000]⟩ := by
  have hsub : step386 code ⟨r, cf, zf, df, mem, words, seg, 7, P⟩ = some
      ⟨{ r with cx := r.cx - 0x1000 }, r.cx < 0x1000, r.cx = 0x1000, df, mem, words, seg, 8, P⟩ := by
    rw [step386, h.sub]
    rfl
  have htest (cf zf : Bool) : step386 code ⟨{ r with cx := r.cx - 0x1000 }, cf, zf, df, mem, words, seg, 8, P⟩ = some
      ⟨{ r with cx := r.cx - 0x1000 }, false, r.ax.setWidth 32 &&& load32 mem (r.cx - 0x1000) = 0, df, mem, words,
        seg, 9, P ++ [r.cx - 0x1000]⟩ := by
    rw [step386, h.test]
    rfl
  exact ⟨_, _, .after hsub (.after (htest _ _) .refl)⟩

variable (r df mem words seg P) in
/-- The comparison, and the jump back to 7 if the address in `cx` is above that in `ax`. -/
theorem compare_reaches (h : Probing code) (cf zf : Bool) : ∃ cf' zf',
    Reaches code ⟨r, cf, zf, df, mem, words, seg, 9, P⟩
      ⟨r, cf', zf', df, mem, words, seg, if r.ax < r.cx then 7 else 11, P⟩ := by
  have hcmp : step386 code ⟨r, cf, zf, df, mem, words, seg, 9, P⟩ = some
      ⟨r, r.cx < r.ax, r.cx = r.ax, df, mem, words, seg, 10, P⟩ := by
    rw [step386, h.cmp]
    rfl
  have habove : (!decide (r.cx < r.ax) && !decide (r.cx = r.ax)) = decide (r.ax < r.cx) := by
    rw [Bool.eq_iff_iff, Bool.and_eq_true, Bool.not_eq_true', Bool.not_eq_true', decide_eq_false_iff_not,
      decide_eq_false_iff_not, decide_eq_true_iff, BitVec.lt_def, BitVec.lt_def, ← BitVec.toNat_inj]
    omega
  have hja : step386 code ⟨r, r.cx < r.ax, r.cx = r.ax, df, mem, words, seg, 10, P⟩ = some
      ⟨r, r.cx < r.ax, r.cx = r.ax, df, mem, words, seg, if r.ax < r.cx then 7 else 11, P⟩ := by
    rw [step386, h.ja]
    show some (if _ then _ else _) = _
    rw [habove]
    by_cases hlt : r.ax < r.cx
    · rw [if_pos hlt, if_pos (decide_eq_true hlt)]
    · rw [if_neg hlt, if_neg (by simpa using hlt)]
  exact ⟨_, _, .after hcmp (.after hja .refl)⟩

variable (df mem words seg) in
/-- From the comparison on, the pages below the low address in `cx` are touched as far as
    the one in `ax` needs. -/
theorem loop_reaches (h : Probing code) (halign : 0x1000 ∣ r.cx.toNat) : ∃ addrs cx, (∀ cf zf, ∃ cf' zf',
      Reaches code ⟨r, cf, zf, df, mem, words, seg, 9, P⟩
        ⟨{ r with cx }, cf', zf', df, mem, words, seg, 11, P ++ addrs⟩) ∧
      Down 0x1000 r.cx.toNat r.ax.toNat (addrs.map BitVec.toNat) := by
  induction hn : r.cx.toNat using Nat.strongRecOn generalizing r P with
  | ind n ih =>
    subst hn
    by_cases hlt : r.ax < r.cx
    · have hpage : 0x1000 ≤ r.cx.toNat := Nat.le_of_dvd (Nat.zero_lt_of_lt hlt) halign
      have hsub : (r.cx - 0x1000).toNat = r.cx.toNat - 0x1000 := BitVec.toNat_sub_of_le hpage
      obtain ⟨addrs, cx, hreaches, hdown⟩ := ih (r.cx - 0x1000).toNat (by omega)
        (r := { r with cx := r.cx - 0x1000 }) (P := P ++ [r.cx - 0x1000]) (by
          show 0x1000 ∣ (r.cx - 0x1000).toNat
          rw [hsub]
          exact Nat.dvd_sub halign (Nat.dvd_refl _)) rfl
      refine ⟨(r.cx - 0x1000) :: addrs, cx, fun cf zf => ?_, ?_⟩
      · obtain ⟨cf, zf, hcompare⟩ := compare_reaches r df mem words seg P h cf zf
        rw [if_pos hlt] at hcompare
        obtain ⟨cf, zf, htouch⟩ := touch_reaches r df mem words seg P h cf zf
        obtain ⟨cf, zf, hrest⟩ := hreaches cf zf
        rw [List.append_assoc] at hrest
        exact ⟨cf, zf, hcompare.trans (htouch.trans hrest)⟩
      · rw [List.map_cons, hsub]
        exact down_cons hlt (hsub ▸ hdown)
    · refine ⟨[], r.cx, fun cf zf => ?_, down_nil (Nat.le_of_not_lt hlt)⟩
      rw [List.append_nil]
      have hcompare := compare_reaches r df mem words seg P h cf zf
      rwa [if_neg hlt] at hcompare

variable (df mem words seg) in
/-- The sum carries: the low address is kept. -/
theorem carried_reaches (h : Probing code) (halign : 0x1000 ∣ r.cx.toNat) (zf : Bool) : ∃ addrs cx cf' zf',
    Reaches code ⟨r, true, zf, df, mem, words, seg, 5, P⟩
      ⟨{ r with cx }, cf', zf', df, mem, words, seg, 11, P ++ addrs⟩ ∧
      Down 0x1000 r.cx.toNat r.ax.toNat (addrs.map BitVec.toNat) := by
  have hjb : step386 code ⟨r, true, zf, df, mem, words, seg, 5, P⟩ = some
      ⟨r, true, zf, df, mem, words, seg, 9, P⟩ := by
    rw [step386, h.jb]
    rfl
  obtain ⟨addrs, cx, hreaches, hdown⟩ := loop_reaches df mem words seg (r := r) (P := P) h halign
  obtain ⟨cf', zf', hloop⟩ := hreaches true zf
  exact ⟨addrs, cx, cf', zf', .after hjb hloop, hdown⟩

variable (df mem words seg) in
/-- Nothing carries: the low address is null, and a page is touched before it is compared. -/
theorem overflowed_reaches (h : Probing code) (halign : 0x1000 ∣ r.cx.toNat) (zf : Bool) : ∃ below cx cf' zf',
    Reaches code ⟨r, false, zf, df, mem, words, seg, 5, P⟩
      ⟨{ r with ax := 0, cx }, cf', zf', df, mem, words, seg, 11, P ++ (r.cx - 0x1000) :: below⟩ ∧
      Down 0x1000 (r.cx - 0x1000).toNat 0 (below.map BitVec.toNat) := by
  have hjb : step386 code ⟨r, false, zf, df, mem, words, seg, 5, P⟩ = some
      ⟨r, false, zf, df, mem, words, seg, 6, P⟩ := by
    rw [step386, h.jb]
    rfl
  have hclear : step386 code ⟨r, false, zf, df, mem, words, seg, 6, P⟩ = some
      ⟨{ r with ax := 0 }, false, true, df, mem, words, seg, 7, P⟩ := by
    rw [step386, h.clear]
    rfl
  have hbelow : 0x1000 ∣ (r.cx - 0x1000).toNat := by
    rw [BitVec.toNat_sub]
    show 0x1000 ∣ (2 ^ 32 - 0x1000 + r.cx.toNat) % 2 ^ 32
    omega
  obtain ⟨cf, zf, htouch⟩ := touch_reaches { r with ax := 0 } df mem words seg P h false true
  obtain ⟨below, cx, hreaches, hdown⟩ := loop_reaches df mem words seg (r := { r with ax := 0, cx := r.cx - 0x1000 })
    (P := P ++ [r.cx - 0x1000]) h hbelow
  obtain ⟨cf', zf', hloop⟩ := hreaches cf zf
  rw [List.append_assoc] at hloop
  exact ⟨below, cx, cf', zf', .after hjb (.after hclear (htouch.trans hloop)), hdown⟩

end

theorem probing_chkstk_ms386 : Probing chkstk_ms386 := ⟨rfl, rfl, rfl, rfl, rfl, rfl⟩

theorem probing_chkstk : Probing chkstk := ⟨rfl, rfl, rfl, rfl, rfl, rfl⟩

/-- The low address of the stack. -/
def limit386 (s : Cpu 32) : BitVec 32 := s.seg 0x08

/-! ## ___chkstk_ms -/

/-- The stack pointer after the two pushes. -/
def lowsp386 (s : Cpu 32) : BitVec 32 := s.reg.sp - 4 - 4

/-- The stack with both registers pushed. -/
def pushed386 (s : Cpu 32) : BitVec 32 → BitVec 32 :=
  Function.update (Function.update s.words (s.reg.sp - 4) s.reg.ax) (lowsp386 s) s.reg.cx

/-- Up to the jump. -/
theorem entry_ms386 (s : Cpu 32) (hpc : s.pc = 0) : ∃ zf, Reaches chkstk_ms386 s
    ⟨{ s.reg with ax := -s.reg.ax + lowsp386 s, cx := limit386 s, sp := lowsp386 s },
      decide (2 ^ 32 ≤ (-s.reg.ax).toNat + (lowsp386 s).toNat), zf, s.df, s.mem, pushed386 s, s.seg, 5, s.probed⟩ := by
  obtain ⟨r, cf, zf, df, mem, words, seg, pc, P⟩ := s
  obtain rfl : pc = 0 := hpc
  exact ⟨_, .after rfl (.after rfl (.after rfl (.after rfl (.after rfl .refl))))⟩

/-- After the loop, both registers are popped. -/
theorem exit_ms386 (s : Cpu 32) (ax cx : BitVec 32) (cf zf : Bool) (P : List (BitVec 32)) : ∃ t,
    Ends386 chkstk_ms386 ⟨{ s.reg with ax, cx, sp := lowsp386 s }, cf, zf, s.df, s.mem, pushed386 s, s.seg, 11, P⟩ t ∧
      t.reg = s.reg ∧ t.mem = s.mem ∧ t.probed = P := by
  have hcx : pushed386 s (lowsp386 s) = s.reg.cx := Function.update_self _ _ _
  have hsp : lowsp386 s + 4 = s.reg.sp - 4 := BitVec.sub_add_cancel _ _
  have hax : pushed386 s (lowsp386 s + 4) = s.reg.ax := by
    have hne : s.reg.sp - 4 ≠ lowsp386 s := by
      intro h
      rw [lowsp386] at h
      bv_omega
    rw [hsp]
    exact (Function.update_of_ne hne _ _).trans (Function.update_self _ _ _)
  have hpopped : lowsp386 s + 4 + 4 = s.reg.sp := by rw [hsp, BitVec.sub_add_cancel]
  refine ⟨_, ⟨.after rfl (.after rfl .refl), rfl⟩, ?_, rfl, rfl⟩
  show (⟨pushed386 s (lowsp386 s + 4), pushed386 s (lowsp386 s), lowsp386 s + 4 + 4, s.reg.si, s.reg.di⟩ : Regs 32) = _
  rw [hax, hcx, hpopped]

/-- For every frame that fits above address 0: as on amd64. -/
theorem chkstk_ms386_ends (s : Cpu 32) (hpc : s.pc = 0) (halign : 0x1000 ∣ (limit386 s).toNat)
    (hfits : s.reg.ax ≤ lowsp386 s) : ∃ t addrs, Ends386 chkstk_ms386 s t ∧ t.reg = s.reg ∧ t.mem = s.mem ∧
      t.probed = s.probed ++ addrs ∧
      (s.reg.ax ≠ 0 → Down 0x1000 (limit386 s).toNat (lowsp386 s - s.reg.ax).toNat (addrs.map BitVec.toNat)) ∧
      (s.reg.ax = 0 → ∃ below, addrs = (limit386 s - 0x1000) :: below ∧
        Down 0x1000 (limit386 s - 0x1000).toNat 0 (below.map BitVec.toNat)) := by
  obtain ⟨zf, hentry⟩ := entry_ms386 s hpc
  have hfits : s.reg.ax.toNat ≤ (lowsp386 s).toNat := hfits
  by_cases hempty : s.reg.ax = 0
  · have hnocarry : ¬ 2 ^ 32 ≤ (-s.reg.ax).toNat + (lowsp386 s).toNat := by
      rw [hempty]
      have := (lowsp386 s).isLt
      simpa using this
    rw [decide_eq_false hnocarry] at hentry
    obtain ⟨below, cx, cf', zf', hloop, hdown⟩ := overflowed_reaches s.df s.mem (pushed386 s) s.seg
      (r := { s.reg with ax := -s.reg.ax + lowsp386 s, cx := limit386 s, sp := lowsp386 s }) (P := s.probed)
      probing_chkstk_ms386 halign zf
    obtain ⟨t, ⟨hreaches, hend⟩, hreg, hmem, hprobed⟩ := exit_ms386 s 0 cx cf' zf'
      (s.probed ++ (limit386 s - 0x1000) :: below)
    exact ⟨t, _, ⟨hentry.trans (hloop.trans hreaches), hend⟩, hreg, hmem, hprobed, fun h => absurd hempty h,
      fun _ => ⟨below, rfl, hdown⟩⟩
  · have hcarry : 2 ^ 32 ≤ (-s.reg.ax).toNat + (lowsp386 s).toNat := by
      have hneg : (-s.reg.ax).toNat = 2 ^ 32 - s.reg.ax.toNat := by bv_omega
      omega
    have hlow : -s.reg.ax + lowsp386 s = lowsp386 s - s.reg.ax := by
      rw [BitVec.add_comm, ← BitVec.sub_eq_add_neg]
    rw [decide_eq_true hcarry, hlow] at hentry
    obtain ⟨addrs, cx, cf', zf', hloop, hdown⟩ := carried_reaches s.df s.mem (pushed386 s) s.seg
      (r := { s.reg with ax := lowsp386 s - s.reg.ax, cx := limit386 s, sp := lowsp386 s }) (P := s.probed)
      probing_chkstk_ms386 halign zf
    obtain ⟨t, ⟨hreaches, hend⟩, hreg, hmem, hprobed⟩ := exit_ms386 s (lowsp386 s - s.reg.ax) cx cf' zf'
      (s.probed ++ addrs)
    exact ⟨t, addrs, ⟨hentry.trans (hloop.trans hreaches), hend⟩, hreg, hmem, hprobed, fun _ => hdown,
      fun h => absurd h hempty⟩

/-! ## __chkstk -/

/-- The low address of the frame. The stack pointer of the caller is above the return
    address. -/
def frame (s : Cpu 32) : BitVec 32 := s.reg.sp + 4 - s.reg.ax

/-- The stack with the counter pushed. -/
def saved (s : Cpu 32) : BitVec 32 → BitVec 32 := Function.update s.words (s.reg.sp - 4) s.reg.cx

/-- Up to the jump: the low address is compared with the stack pointer. -/
theorem entry_chkstk (s : Cpu 32) (hpc : s.pc = 0) : ∃ zf, Reaches chkstk s
    ⟨{ s.reg with ax := frame s, cx := limit386 s, sp := s.reg.sp - 4 }, decide (frame s < s.reg.sp - 4), zf, s.df,
      s.mem, saved s, s.seg, 5, s.probed⟩ := by
  have hlea : s.reg.sp - 4 + -s.reg.ax + 8 = frame s := by
    rw [frame]
    bv_omega
  obtain ⟨r, cf, zf, df, mem, words, seg, pc, P⟩ := s
  obtain rfl : pc = 0 := hpc
  rw [← hlea]
  exact ⟨_, .after rfl (.after rfl (.after rfl (.after rfl (.after rfl .refl))))⟩

/-- After the loop the counter is popped, and the stack pointer is the low address. -/
theorem exit_chkstk (s : Cpu 32) (ax cx : BitVec 32) (cf zf : Bool) (P : List (BitVec 32)) : ∃ t,
    Ends386 chkstk ⟨{ s.reg with ax, cx, sp := s.reg.sp - 4 }, cf, zf, s.df, s.mem, saved s, s.seg, 11, P⟩ t ∧
      t.reg = { s.reg with ax := s.reg.sp, sp := ax } ∧ t.mem = s.mem ∧ t.words = saved s ∧ t.probed = P := by
  have hcx : saved s (s.reg.sp - 4) = s.reg.cx := Function.update_self _ _ _
  have hsp : s.reg.sp - 4 + 4 = s.reg.sp := BitVec.sub_add_cancel _ _
  refine ⟨_, ⟨.after rfl (.after rfl .refl), rfl⟩, ?_, rfl, rfl, rfl⟩
  show (⟨s.reg.sp - 4 + 4, saved s (s.reg.sp - 4), ax, s.reg.si, s.reg.di⟩ : Regs 32) = _
  rw [hcx, hsp]

/-- The routine ends with the frame on the stack: it leaves to the caller, with the pages
    that the frame needs, and of the registers only `ax` is lost. -/
def Allocates (s : Cpu 32) : Prop :=
  ∃ t addrs, Ends386 chkstk s t ∧ t.reg = { s.reg with ax := t.reg.ax, sp := frame s } ∧
    t.words t.reg.ax = s.words s.reg.sp ∧ t.mem = s.mem ∧ t.probed = s.probed ++ addrs ∧
    Down 0x1000 (limit386 s).toNat (frame s).toNat (addrs.map BitVec.toNat)

/-- What is below the stack pointer is saved, the return address is not. -/
theorem saved_return (s : Cpu 32) : saved s s.reg.sp = s.words s.reg.sp :=
  Function.update_of_ne (by bv_omega) _ _

theorem allocates (s : Cpu 32) (hpc : s.pc = 0) (halign : 0x1000 ∣ (limit386 s).toNat)
    (hlow : frame s < s.reg.sp - 4) : Allocates s := by
  obtain ⟨zf, hentry⟩ := entry_chkstk s hpc
  rw [decide_eq_true hlow] at hentry
  obtain ⟨addrs, cx, cf', zf', hloop, hdown⟩ := carried_reaches s.df s.mem (saved s) s.seg
    (r := { s.reg with ax := frame s, cx := limit386 s, sp := s.reg.sp - 4 }) (P := s.probed) probing_chkstk halign zf
  obtain ⟨t, ⟨hreaches, hend⟩, hreg, hmem, hwords, hprobed⟩ := exit_chkstk s (frame s) cx cf' zf' (s.probed ++ addrs)
  refine ⟨t, addrs, ⟨hentry.trans (hloop.trans hreaches), hend⟩, ?_, ?_, hmem, hprobed, hdown⟩
  · rw [hreg]
  · rw [hreg, hwords]
    exact saved_return s

/-- A frame that is not below what is saved is lost: the stack pointer is null, and all
    pages are touched. -/
theorem chkstk_overflows (s : Cpu 32) (hpc : s.pc = 0) (halign : 0x1000 ∣ (limit386 s).toNat)
    (hlow : ¬ frame s < s.reg.sp - 4) : ∃ t below, Ends386 chkstk s t ∧ t.reg.sp = 0 ∧
      t.probed = s.probed ++ (limit386 s - 0x1000) :: below ∧
      Down 0x1000 (limit386 s - 0x1000).toNat 0 (below.map BitVec.toNat) := by
  obtain ⟨zf, hentry⟩ := entry_chkstk s hpc
  rw [decide_eq_false hlow] at hentry
  obtain ⟨below, cx, cf', zf', hloop, hdown⟩ := overflowed_reaches s.df s.mem (saved s) s.seg
    (r := { s.reg with ax := frame s, cx := limit386 s, sp := s.reg.sp - 4 }) (P := s.probed) probing_chkstk halign zf
  obtain ⟨t, ⟨hreaches, hend⟩, hreg, -, -, hprobed⟩ := exit_chkstk s 0 cx cf' zf'
    (s.probed ++ (limit386 s - 0x1000) :: below)
  refine ⟨t, below, ⟨hentry.trans (hloop.trans hreaches), hend⟩, ?_, hprobed, hdown⟩
  rw [hreg]

/-- For every frame, and every stack that is committed down to an aligned address and holds
    what the routine pushes: the frame is allocated exactly when it has more than the eight
    bytes of the return address and the counter, and fits above address 0. Otherwise all
    pages are touched, and the routine ends with a null stack pointer. -/
theorem chkstk_allocates_iff (s : Cpu 32) (hpc : s.pc = 0) (halign : 0x1000 ∣ (limit386 s).toNat)
    (hpush : 4 ≤ s.reg.sp) (hlimit : limit386 s ≤ s.reg.sp - 4) (hcaller : s.reg.sp < s.reg.sp + 4) :
    (Allocates s ↔ 8 < s.reg.ax ∧ s.reg.ax ≤ s.reg.sp + 4) ∧
    (¬ (8 < s.reg.ax ∧ s.reg.ax ≤ s.reg.sp + 4) → ∃ t below, Ends386 chkstk s t ∧ t.reg.sp = 0 ∧
      t.probed = s.probed ++ (limit386 s - 0x1000) :: below ∧
      Down 0x1000 (limit386 s - 0x1000).toNat 0 (below.map BitVec.toNat)) := by
  have hlow : frame s < s.reg.sp - 4 ↔ 8 < s.reg.ax ∧ s.reg.ax ≤ s.reg.sp + 4 := by
    rw [frame]
    bv_omega
  rw [← hlow]
  refine ⟨⟨?_, allocates s hpc halign⟩, chkstk_overflows s hpc halign⟩
  rintro ⟨t, addrs, hends, hreg, -, -, hprobed, hdown⟩
  by_contra hnot
  obtain ⟨t', below, hends', hsp', hprobed', -⟩ := chkstk_overflows s hpc halign hnot
  obtain rfl := hends.unique hends'
  -- the frame would end at address 0, where the limit is, and need no page
  have hnull : frame s = 0 := by
    rw [← hsp', hreg]
  have hnil := down_above (show (limit386 s).toNat ≤ (frame s).toNat by bv_omega) hdown
  have hsame : addrs = (limit386 s - 0x1000) :: below := List.append_cancel_left (hprobed.symm.trans hprobed')
  rw [hsame] at hnil
  cases hnil

/-- A stack of one page, at `0x2000`, the address to return to, and a frame of this size. -/
def called (size : BitVec 32) : Cpu 32 where
  reg := ⟨size, 0, 0x3008, 0, 0⟩
  cf := false
  zf := false
  df := false
  mem := fun _ => 0
  words := fun a => if a = 0x3008 then 0x401000 else 0
  seg := fun _ => 0x2000
  pc := 0
  probed := []

theorem chkstk_allocates_iff_both : Allocates (called 0x1000) ∧ ¬ Allocates (called 8) ∧
    ∃ t, Ends386 chkstk (called 8) t ∧ t.reg.sp = 0 := by
  have hlarge := chkstk_allocates_iff (called 0x1000) rfl (by decide) (by decide) (by decide) (by decide)
  have hsmall := chkstk_allocates_iff (called 8) rfl (by decide) (by decide) (by decide) (by decide)
  obtain ⟨t, -, hends, hsp, -⟩ := hsmall.2 (by decide)
  exact ⟨hlarge.1.mpr (by decide), fun h => absurd (hsmall.1.mp h) (by decide), t, hends, hsp⟩

end GnuWindows.Runtime
