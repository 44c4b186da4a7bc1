/-
  GnuWindows.Runtime.Chkstk — stack probes (`___chkstk_ms` of libchkstk.S, for amd64).

  The routine extends the stack down to the low address of a new frame, a page at a time.
  Whether the frame goes below address 0 is read from the carry of adding the negated size.
  Negating 0 gives 0, and adding that carries nothing: an empty frame is taken for one that
  overflows, and all pages down to address 0 are touched.

  Proved: `chkstk_ms_ends`, what the routine touches for every frame; `chkstk_ms_extends_iff`,
  it is what the frame needs exactly when the frame is not empty.
-/
import GnuWindows.Lib.X86

namespace GnuWindows.Runtime

open GnuWindows.Lib.X86

/-- With the size of the frame in `ax`, and the low address of the stack in the thread's
    block. -/
def chkstk_ms : List (Instr 64) :=
  [.push .ax,
   .push .cx,
   .movseg 0x10 .cx,
   .neg .ax,
   .add .sp .ax,
   .jb 9,
   .clear .ax,
   .sub 0x1000 .cx,
   .test .ax .cx,
   .cmp .ax .cx,
   .ja 7,
   .pop .cx,
   .pop .ax,
   .ret]

/-- The pages below `L`, one after the other, down to the first one at or below `low`. -/
def Down (page L low : Nat) (addrs : List Nat) : Prop :=
  ∃ k, addrs = (List.range k).map (fun i => L - page * (i + 1)) ∧ (∀ i < k, low < L - page * i) ∧
    L - page * k ≤ low

variable {page L low : Nat} {addrs : List Nat}

theorem down_nil (h : L ≤ low) : Down page L low [] := ⟨0, by simp, by simp, by simpa using h⟩

theorem down_cons (hlt : low < L) (h : Down page (L - page) low addrs) : Down page L low ((L - page) :: addrs) := by
  obtain ⟨k, rfl, habove, hlast⟩ := h
  have hsub (i : Nat) : L - page * (i + 1) = L - page - page * i := by rw [Nat.mul_succ, Nat.add_comm, Nat.sub_sub]
  refine ⟨k + 1, ?_, fun i hi => ?_, by rwa [hsub]⟩
  · rw [List.range_succ_eq_map, List.map_cons, List.map_map, Nat.zero_add, Nat.mul_one]
    refine congrArg _ (List.map_congr_left fun i _ => ?_)
    rw [Function.comp_apply, hsub]
  · cases i with
    | zero => rwa [Nat.mul_zero]
    | succ i =>
      rw [hsub]
      exact habove i (by omega)

/-- Nothing is touched when the limit is low enough. -/
theorem down_above (hle : L ≤ low) (h : Down page L low addrs) : addrs = [] := by
  obtain ⟨k, rfl, habove, -⟩ := h
  cases k with
  | zero => rfl
  | succ k =>
    have := habove 0 (Nat.succ_pos k)
    rw [Nat.mul_zero] at this
    omega

/-! ## The loop -/

section

variable {r : Regs 64} {cf zf df : Bool} {mem : BitVec 64 → UInt8} {words : BitVec 64 → BitVec 64}
  {seg : Nat → BitVec 64} {P : List (BitVec 64)} {t : Cpu 64}

/-- The stack with both registers pushed. -/
def pushed (r : Regs 64) (words : BitVec 64 → BitVec 64) : BitVec 64 → BitVec 64 :=
  Function.update (Function.update words (r.sp - 8) r.ax) (r.sp - 8 - 8) r.cx

/-- Up to the jump: the low address of the frame, and whether the sum carries. -/
theorem entry_ends
    (h : ∀ zf, Ends chkstk_ms ⟨{ r with ax := -r.ax + (r.sp - 8 - 8), cx := seg 0x10, sp := r.sp - 8 - 8 },
      2 ^ 64 ≤ (-r.ax).toNat + (r.sp - 8 - 8).toNat, zf, df, mem, pushed r words, seg, 5, P⟩ t) :
    Ends chkstk_ms ⟨r, cf, zf, df, mem, words, seg, 0, P⟩ t :=
  Ends.after rfl (Ends.after rfl (Ends.after rfl (Ends.after rfl (Ends.after rfl (h _)))))

/-- The page below is touched, and the comparison comes next. -/
theorem touch_ends (h : ∀ cf zf,
      Ends chkstk_ms ⟨{ r with cx := r.cx - 0x1000 }, cf, zf, df, mem, words, seg, 9, P ++ [r.cx - 0x1000]⟩ t) :
    Ends chkstk_ms ⟨r, cf, zf, df, mem, words, seg, 7, P⟩ t :=
  Ends.after rfl (Ends.after rfl (h _ _))

/-- When the low address in `cx` is low enough, the registers are popped. -/
theorem pop_ends (hle : r.cx.toNat ≤ r.ax.toNat) (cf zf : Bool) :
    Ends chkstk_ms ⟨r, cf, zf, df, mem, words, seg, 9, P⟩
      ⟨{ r with ax := words (r.sp + 8), cx := words r.sp, sp := r.sp + 8 + 8 }, r.cx < r.ax, r.cx = r.ax, df, mem,
        words, seg, 13, P⟩ := by
  have hstay : ¬ (!decide (r.cx < r.ax) && !decide (r.cx = r.ax)) = true := by
    rw [Bool.and_eq_true, Bool.not_eq_true', Bool.not_eq_true', decide_eq_false_iff_not, decide_eq_false_iff_not,
      BitVec.lt_def, ← BitVec.toNat_inj]
    omega
  refine Ends.after rfl (Ends.after (congrArg some (if_neg hstay)) ?_)
  exact Ends.after rfl (Ends.after rfl (Ends.here rfl))

variable (df mem words seg) in
/-- From the comparison on, the pages below the low address in `cx` are touched as far as
    the one in `ax` needs, and the registers are popped. -/
theorem loop_ends (halign : 0x1000 ∣ r.cx.toNat) : ∃ t addrs,
    (∀ cf zf, Ends chkstk_ms ⟨r, cf, zf, df, mem, words, seg, 9, P⟩ t) ∧
      t.reg = { r with ax := words (r.sp + 8), cx := words r.sp, sp := r.sp + 8 + 8 } ∧ t.mem = mem ∧
      t.probed = P ++ addrs ∧ Down 0x1000 r.cx.toNat r.ax.toNat (addrs.map BitVec.toNat) := by
  induction hn : r.cx.toNat using Nat.strongRecOn generalizing r P with
  | ind n ih =>
    subst hn
    by_cases hle : r.cx.toNat ≤ r.ax.toNat
    · exact ⟨_, [], pop_ends hle, rfl, rfl, (List.append_nil P).symm, down_nil hle⟩
    · have hgo : (!decide (r.cx < r.ax) && !decide (r.cx = r.ax)) = true := by
        rw [Bool.and_eq_true, Bool.not_eq_true', Bool.not_eq_true', decide_eq_false_iff_not, decide_eq_false_iff_not,
          BitVec.lt_def, ← BitVec.toNat_inj]
        omega
      have hpage : 0x1000 ≤ r.cx.toNat := Nat.le_of_dvd (by omega) halign
      have hsub : (r.cx - 0x1000).toNat = r.cx.toNat - 0x1000 := BitVec.toNat_sub_of_le hpage
      obtain ⟨t, addrs, hends, hreg, hmem, hprobed, hdown⟩ := ih (r.cx - 0x1000).toNat (by omega)
        (r := { r with cx := r.cx - 0x1000 }) (P := P ++ [r.cx - 0x1000]) (by
          show 0x1000 ∣ (r.cx - 0x1000).toNat
          rw [hsub]
          exact Nat.dvd_sub halign (Nat.dvd_refl _)) rfl
      refine ⟨t, (r.cx - 0x1000) :: addrs, fun cf zf => ?_, hreg, hmem, ?_, ?_⟩
      · exact Ends.after rfl (Ends.after (congrArg some (if_pos hgo)) (touch_ends hends))
      · rw [hprobed, List.append_assoc]
        rfl
      · rw [List.map_cons, hsub]
        exact down_cons (Nat.lt_of_not_le hle) (hsub ▸ hdown)

end

/-! ## The routine -/

/-- The stack pointer after the two pushes. -/
def lowsp (s : Cpu 64) : BitVec 64 := s.reg.sp - 8 - 8

/-- The low address of the stack. -/
def limit (s : Cpu 64) : BitVec 64 := s.seg 0x10

theorem pushed_words (r : Regs 64) (words : BitVec 64 → BitVec 64) :
    pushed r words (r.sp - 8 - 8) = r.cx ∧ pushed r words (r.sp - 8 - 8 + 8) = r.ax := by
  have hne : r.sp - 8 ≠ r.sp - 8 - 8 := by
    intro h
    bv_omega
  refine ⟨Function.update_self _ _ _, ?_⟩
  rw [BitVec.sub_add_cancel]
  exact (Function.update_of_ne hne _ _).trans (Function.update_self _ _ _)

/-- For every frame that fits above address 0, the routine ends and leaves the registers
    and memory as they were. A frame that is not empty gets the pages it needs, an empty
    one the page below and all the pages below that. -/
theorem chkstk_ms_ends (s : Cpu 64) (hpc : s.pc = 0) (halign : 0x1000 ∣ (limit s).toNat)
    (hfits : s.reg.ax ≤ lowsp s) : ∃ t addrs, Ends chkstk_ms s t ∧ t.reg = s.reg ∧ t.mem = s.mem ∧
      t.probed = s.probed ++ addrs ∧
      (s.reg.ax ≠ 0 → Down 0x1000 (limit s).toNat (lowsp s - s.reg.ax).toNat (addrs.map BitVec.toNat)) ∧
      (s.reg.ax = 0 → ∃ below, addrs = (limit s - 0x1000) :: below ∧
        Down 0x1000 (limit s - 0x1000).toNat 0 (below.map BitVec.toNat)) := by
  obtain ⟨r, cf, zf, df, mem, words, seg, pc, P⟩ := s
  obtain rfl : pc = 0 := hpc
  obtain ⟨hcx, hax⟩ := pushed_words r words
  have hsp : r.sp - 8 - 8 + 8 + 8 = r.sp := by bv_omega
  have hrestored : (⟨pushed r words (r.sp - 8 - 8 + 8), pushed r words (r.sp - 8 - 8), r.sp - 8 - 8 + 8 + 8,
      r.si, r.di⟩ : Regs 64) = r := by rw [hcx, hax, hsp]
  have hfits : r.ax.toNat ≤ (r.sp - 8 - 8).toNat := hfits
  by_cases hempty : r.ax = 0
  · -- no carry: the low address is null
    have hnocarry : ¬ 2 ^ 64 ≤ (-r.ax).toNat + (r.sp - 8 - 8).toNat := by
      rw [hempty]
      have := (r.sp - 8 - 8).isLt
      simpa using this
    have hbelow : 0x1000 ∣ (seg 0x10 - 0x1000).toNat := by
      have halign : 0x1000 ∣ (seg 0x10).toNat := halign
      rw [BitVec.toNat_sub]
      show 0x1000 ∣ (2 ^ 64 - 0x1000 + (seg 0x10).toNat) % 2 ^ 64
      omega
    obtain ⟨t, addrs, hends, hreg, hmem, hprobed, hdown⟩ := loop_ends df mem (pushed r words) seg
      (r := { r with ax := 0, cx := seg 0x10 - 0x1000, sp := r.sp - 8 - 8 }) (P := P ++ [seg 0x10 - 0x1000]) hbelow
    refine ⟨t, (seg 0x10 - 0x1000) :: addrs, ?_, hreg.trans hrestored, hmem, ?_, fun h => absurd hempty h,
      fun _ => ⟨addrs, rfl, hdown⟩⟩
    · refine entry_ends fun zf => Ends.after (congrArg some (if_neg (by simpa using hnocarry))) ?_
      exact Ends.after rfl (touch_ends hends)
    · rw [hprobed, List.append_assoc]
      rfl
  · -- the sum carries: the low address of the frame is kept
    have hcarry : 2 ^ 64 ≤ (-r.ax).toNat + (r.sp - 8 - 8).toNat := by
      have hneg : (-r.ax).toNat = 2 ^ 64 - r.ax.toNat := by bv_omega
      omega
    have hlow : -r.ax + (r.sp - 8 - 8) = r.sp - 8 - 8 - r.ax := by bv_omega
    obtain ⟨t, addrs, hends, hreg, hmem, hprobed, hdown⟩ := loop_ends df mem (pushed r words) seg
      (r := { r with ax := -r.ax + (r.sp - 8 - 8), cx := seg 0x10, sp := r.sp - 8 - 8 }) (P := P) halign
    refine ⟨t, addrs, ?_, hreg.trans hrestored, hmem, hprobed, fun _ => ?_, fun h => absurd h hempty⟩
    · exact entry_ends fun zf => Ends.after (congrArg some (if_pos (decide_eq_true hcarry))) (hends _ _)
    · rw [hlow] at hdown
      exact hdown

/-- The routine ends and has touched the pages that the frame needs. -/
def Extends (s : Cpu 64) : Prop :=
  ∃ t addrs, Ends chkstk_ms s t ∧ t.probed = s.probed ++ addrs ∧
    Down 0x1000 (limit s).toNat (lowsp s - s.reg.ax).toNat (addrs.map BitVec.toNat)

/-- An empty frame needs no page, and one is touched. -/
theorem not_extends_empty {s : Cpu 64} (hpc : s.pc = 0) (halign : 0x1000 ∣ (limit s).toNat)
    (hlimit : limit s ≤ lowsp s) (hempty : s.reg.ax = 0) : ¬ Extends s := by
  rintro ⟨t, addrs, hends, hprobed, hdown⟩
  have hfits : s.reg.ax ≤ lowsp s := by
    rw [hempty]
    exact Nat.zero_le _
  obtain ⟨t', addrs', hends', -, -, hprobed', -, htouched⟩ := chkstk_ms_ends s hpc halign hfits
  obtain ⟨below, hbelow, -⟩ := htouched hempty
  obtain rfl := hends.unique hends'
  have hsame : addrs = addrs' := List.append_cancel_left (hprobed.symm.trans hprobed')
  rw [hempty, sub_zero] at hdown
  have hnil := down_above hlimit hdown
  rw [hsame, hbelow] at hnil
  cases hnil

/-- For every frame that fits above address 0, and every stack that is committed down to
    an aligned address: exactly the pages that the frame needs are touched, none for a
    frame in the stack, if and only if the frame is not empty. -/
theorem chkstk_ms_extends_iff (s : Cpu 64) (hpc : s.pc = 0) (halign : 0x1000 ∣ (limit s).toNat)
    (hlimit : limit s ≤ lowsp s) (hfits : s.reg.ax ≤ lowsp s) : Extends s ↔ s.reg.ax ≠ 0 := by
  constructor
  · exact fun h hempty => not_extends_empty hpc halign hlimit hempty h
  · intro hsize
    obtain ⟨t, addrs, hends, -, -, hprobed, hdown, -⟩ := chkstk_ms_ends s hpc halign hfits
    exact ⟨t, addrs, hends, hprobed, hdown hsize⟩

/-- A stack of one page, at `0x2000`, and a frame of this size. -/
def onepage (size : BitVec 64) : Cpu 64 where
  reg := ⟨size, 0, 0x3010, 0, 0⟩
  cf := false
  zf := false
  df := false
  mem := fun _ => 0
  words := fun _ => 0
  seg := fun _ => 0x2000
  pc := 0
  probed := []

theorem chkstk_ms_extends_iff_full : Extends (onepage 0x1000) ↔ (0x1000 : BitVec 64) ≠ 0 :=
  chkstk_ms_extends_iff (onepage 0x1000) rfl (by decide) (by decide) (by decide)

/-- All pages down to address 0 are touched for nothing. -/
theorem empty_frame_touches :
    ¬ Extends (onepage 0) ∧ (run chkstk_ms 20 (onepage 0)).map Cpu.probed = some [0x1000, 0] :=
  ⟨not_extends_empty rfl (by decide) (by decide) rfl, by decide⟩

end GnuWindows.Runtime
