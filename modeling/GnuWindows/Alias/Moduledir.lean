/-
  GnuWindows.Alias.Moduledir — the directory that an alias starts its target from
  (`getmoduledir` of alias.c and busybox-alias.c).

  Both look for the last separator in what `GetModuleFileNameW` has copied, and it copies no
  more of a path than there is room for. Nothing looks at whether it had to truncate: what
  does not fit later is an error, but the last separator of a truncated copy may be the one
  of a directory further up.

  Proved: `starts_adjacent_iff`, exactly when the target is the one next to the alias.
-/
import GnuWindows.Alias.Busybox
import Mathlib.Data.List.DropRight

namespace GnuWindows.Alias

open GnuWindows.PkgConfig (S16 S)

/-! ## The directory of a path -/

/-- The path up to its last separator. -/
def moduledir (full : S16) : S16 := full.rdropWhile (!separator ·)

/-- The units of a truncated path that are copied: the last one may be a terminator. -/
def copies (terminates : Bool) : Nat := if terminates then MAX_PATH - 1 else MAX_PATH

/-- What `GetModuleFileNameW` stores of a path, of the length that it returns. -/
def copied (terminates : Bool) (full : S16) : S16 :=
  if full.length < MAX_PATH then full
  else if terminates then full.take (MAX_PATH - 1) ++ [0]
  else full.take MAX_PATH

theorem moduledir_front (full : S16) : moduledir full <+: full := List.rdropWhile_prefix _ _

/-- What follows the last separator does not matter. -/
theorem moduledir_append (full : S16) {base : S16} (hbase : ∀ c ∈ base, separator c = false) :
    moduledir (full ++ base) = moduledir full := by
  induction base using List.reverseRecOn with
  | nil => rw [List.append_nil]
  | append_singleton base c ih =>
    rw [List.forall_mem_append, List.forall_mem_singleton] at hbase
    rw [← List.append_assoc, moduledir, List.rdropWhile_concat_pos _ _ _ (by rw [hbase.2]; rfl)]
    exact ih hbase.1

theorem moduledir_split (full : S16) : ∃ base, moduledir full ++ base = full ∧ ∀ c ∈ base, separator c = false :=
  ⟨full.rtakeWhile (!separator ·), List.rdropWhile_append_rtakeWhile, fun _ hc => by
    simpa using List.mem_rtakeWhile_imp hc⟩

/-- The first units have the same last separator exactly when they reach it. -/
theorem moduledir_take_iff (full : S16) (n : Nat) :
    moduledir (full.take n) = moduledir full ↔ (moduledir full).length ≤ n := by
  constructor
  · intro h
    have hle := (moduledir_front (full.take n)).length_le
    rw [h, List.length_take] at hle
    omega
  · intro hle
    obtain ⟨base, hsplit, hbase⟩ := moduledir_split full
    have htake : full.take n = moduledir full ++ base.take (n - (moduledir full).length) := by
      conv_lhs => rw [← hsplit, List.take_append, List.take_of_length_le hle]
    rw [htake, moduledir_append _ fun c hc => hbase c (List.mem_of_mem_take hc)]
    exact List.rdropWhile_idempotent _ _

theorem moduledir_copied (terminates : Bool) {full : S16} (hlong : ¬ full.length < MAX_PATH) :
    moduledir (copied terminates full) = moduledir (full.take (copies terminates)) := by
  rw [copied, if_neg hlong]
  cases terminates with
  | false => rfl
  | true => exact moduledir_append _ (by simp [separator])

/-- The copy has the last separator of the path. -/
def Reached (terminates : Bool) (full : S16) : Prop :=
  full.length < MAX_PATH ∨ (moduledir full).length ≤ copies terminates

theorem moduledir_copied_iff (terminates : Bool) (full : S16) :
    moduledir (copied terminates full) = moduledir full ↔ Reached terminates full := by
  by_cases hlong : full.length < MAX_PATH
  · rw [copied, if_pos hlong]
    exact ⟨fun _ => Or.inl hlong, fun _ => rfl⟩
  · rw [moduledir_copied terminates hlong, moduledir_take_iff]
    exact ⟨Or.inr, fun h => h.resolve_left hlong⟩

/-- Otherwise the directory of the copy is one further up. -/
theorem moduledir_shorter {terminates : Bool} {full : S16} (h : ¬ Reached terminates full) :
    (moduledir (copied terminates full)).length ≤ copies terminates ∧
      copies terminates < (moduledir full).length := by
  obtain ⟨hlong, hfar⟩ := not_or.mp h
  refine ⟨?_, Nat.lt_of_not_le hfar⟩
  rw [moduledir_copied terminates hlong]
  have hle := (moduledir_front (full.take (copies terminates))).length_le
  rw [List.length_take] at hle
  omega

/-! ## The path of the executable -/

/-- Two texts in a buffer: both as they are, or an error when they do not fit. -/
theorem append_append (cap : Nat) (s t : S16) :
    (append (append (newbuf cap) s) t).err = decide (cap < s.length + t.length) ∧
      ((append (append (newbuf cap) s) t).err = false → (append (append (newbuf cap) s) t).buf = s ++ t) := by
  by_cases hs : cap < s.length
  · simp [append, newbuf, hs]
    omega
  · by_cases ht : cap - s.length < t.length
    · simp [append, newbuf, hs, ht]
      omega
    · simp [append, newbuf, hs, ht]
      omega

theorem append_nil (b : C16buf) : append b [] = b := by simp [append]

theorem moduledir_reverse (path : S16) : moduledir path = (path.reverse.dropWhile (!separator ·)).reverse := rfl

theorem getmoduledir_eq (b : C16buf) (path : S16) : getmoduledir b path = append b (moduledir path) := by
  rw [getmoduledir, moduledir_reverse]
  split
  · rename_i h
    rw [h, List.reverse_nil, append_nil]
  · rename_i h
    rw [h]

theorem Busybox.getmoduledir_eq (b : C16buf) (path : S16) :
    Busybox.getmoduledir b path = Alias.append b (moduledir path).dropLast := by
  rw [Busybox.getmoduledir, moduledir_reverse]
  split
  · rename_i h
    rw [h, List.reverse_nil, List.dropLast_nil, append_nil]
  · rename_i h
    rw [h, Busybox.append_eq, List.reverse_cons, List.dropLast_concat]

/-- The program refuses, or the path is this one. -/
def Adjacent (exe : C16buf) (path : S16) : Prop := exe.err = true ∨ exe.buf = path

/-- The texts `dir` and `name` in a buffer, where `dir` is meant to be `real`. -/
theorem adjacent_iff (cap : Nat) (dir real name : S16) :
    Adjacent (append (append (newbuf cap) dir) name) (real ++ name) ↔ dir = real ∨ cap < dir.length + name.length := by
  obtain ⟨herr, hbuf⟩ := append_append cap dir name
  unfold Adjacent
  by_cases hlong : cap < dir.length + name.length
  · rw [herr, decide_eq_true hlong]
    exact ⟨fun _ => Or.inr hlong, fun _ => Or.inl rfl⟩
  · rw [hbuf (by rw [herr, decide_eq_false hlong]), herr, decide_eq_false hlong, List.append_left_inj]
    constructor
    · rintro (h | h)
      · cases h
      · exact Or.inl h
    · exact fun h => Or.inr (h.resolve_right hlong)

theorem dropLast_copied_iff (terminates : Bool) (full : S16) :
    (moduledir (copied terminates full)).dropLast = (moduledir full).dropLast ↔ Reached terminates full := by
  constructor
  · intro h
    by_contra hfar
    obtain ⟨hle, hlt⟩ := moduledir_shorter hfar
    have hlen := congrArg List.length h
    have hpos : 1 < copies terminates := by cases terminates <;> decide
    rw [List.length_dropLast, List.length_dropLast] at hlen
    omega
  · intro h
    rw [(moduledir_copied_iff terminates full).mpr h]

/-! ## The calls -/

/-- An error is one of the refusals, and otherwise this is the path of every process that
    is started. -/
def Hands (o : Outcome) (exe : C16buf) (refusals : List Outcome) (path : S16) : Prop :=
  (exe.err = true → o ∈ refusals) ∧ ∀ call ∈ o.calls, exe.err = false ∧ call.1 = path

theorem aliasmain_hands (win : Win) (EXE CMD : S16) : Hands (aliasmain win EXE CMD) (exebuf win EXE)
    [fatal (S "out of memory"), fatal (S ".exe path too long")]
    (cstring (collapsed win EXE (exebuf win EXE).buf)) := by
  cases hmem : win.virtualalloc with
  | false =>
    have hrefused : aliasmain win EXE CMD = fatal (S "out of memory") := by simp [aliasmain, hmem]
    rw [hrefused]
    exact ⟨fun _ => List.mem_cons_self, fun call hcall => nomatch hcall⟩
  | true =>
    cases herr : (exebuf win EXE).err with
    | true =>
      have hrefused : aliasmain win EXE CMD = fatal (S ".exe path too long") := by simp [aliasmain, hmem, herr]
      rw [hrefused]
      exact ⟨fun _ => List.mem_cons_of_mem _ List.mem_cons_self, fun call hcall => nomatch hcall⟩
    | false =>
      refine ⟨fun h => absurd (herr.symm.trans h) Bool.false_ne_true, fun call hcall => ⟨herr, ?_⟩⟩
      simp only [aliasmain, hmem, herr] at hcall
      cases hlong : (cmdbuf win CMD).err with
      | true => simp [hlong, fatal] at hcall
      | false =>
        simp only [hlong] at hcall
        obtain rfl : call = (cstring (collapsed win EXE (exebuf win EXE).buf), cstring (cmdbuf win CMD).buf) := by
          revert hcall
          cases win.createprocess _ _ <;> simp
        rfl

theorem Busybox.run_hands (win : Win) : Hands (Busybox.run win) (Busybox.exebuf win)
    [Busybox.fatal (S "w64devkit: busybox.exe path too long\n")] (cstring (Busybox.exebuf win).buf) := by
  cases herr : (Busybox.exebuf win).err with
  | true =>
    have hrefused : Busybox.run win = Busybox.fatal (S "w64devkit: busybox.exe path too long\n") := by
      simp [Busybox.run, herr]
    rw [hrefused]
    exact ⟨fun _ => List.mem_cons_self, fun call hcall => nomatch hcall⟩
  | false =>
    refine ⟨fun h => absurd (herr.symm.trans h) Bool.false_ne_true, fun call hcall => ⟨herr, ?_⟩⟩
    simp only [Busybox.run, herr] at hcall
    obtain rfl : call = (cstring (Busybox.exebuf win).buf, win.commandline) := by
      revert hcall
      cases win.createprocess _ _ <;> simp
    rfl

/-- For a module at the path `full`, and an `EXE` that is relative: what either program
    starts is the path in its buffer, `alias` with its relative components collapsed. This
    is the target next to the module, or the program refuses, exactly when the copy of the
    path has its last separator or the wrong directory is too long as well. -/
theorem starts_adjacent_iff (system : Win) (full EXE CMD : S16) (terminates : Bool)
    (hrel : (EXE ++ [0]).getD 1 0 ≠ 0x3a) :
    let win := { system with modulefilename := copied terminates full }
    let dir := moduledir (copied terminates full)
    (Hands (aliasmain win EXE CMD) (exebuf win EXE) [fatal (S "out of memory"), fatal (S ".exe path too long")]
        (cstring (collapsed win EXE (exebuf win EXE).buf)) ∧
      (Adjacent (exebuf win EXE) (moduledir full ++ (EXE ++ [0])) ↔
        Reached terminates full ∨ 2 * MAX_PATH < dir.length + (EXE.length + 1))) ∧
    (Hands (Busybox.run win) (Busybox.exebuf win) [Busybox.fatal (S "w64devkit: busybox.exe path too long\n")]
        (cstring (Busybox.exebuf win).buf) ∧
      (Adjacent (Busybox.exebuf win) ((moduledir full).dropLast ++ (Busybox.busybox ++ [0])) ↔
        Reached terminates full ∨ MAX_PATH < dir.dropLast.length + (Busybox.busybox.length + 1))) := by
  intro win dir
  refine ⟨⟨aliasmain_hands win EXE CMD, ?_⟩, Busybox.run_hands win, ?_⟩
  · have hexe : exebuf win EXE = append (append (newbuf (2 * MAX_PATH)) dir) (EXE ++ [0]) := by
      rw [exebuf, if_pos hrel, getmoduledir_eq]
    rw [hexe, adjacent_iff, moduledir_copied_iff, List.length_append, List.length_singleton]
  · have hexe : Busybox.exebuf win = append (append (newbuf MAX_PATH) dir.dropLast) (Busybox.busybox ++ [0]) := by
      rw [Busybox.exebuf, Busybox.getmoduledir_eq, Busybox.append_eq]
    rw [hexe, adjacent_iff, dropLast_copied_iff, List.length_append, List.length_singleton]

/-- Where every call succeeds. -/
def started : Win where
  virtualalloc := true
  modulefilename := []
  fullpathname := fun path _ => (path.length, path ++ [0])
  commandline := [0x73, 0x68]
  createprocess := fun _ _ => some 0

/-- `busybox.exe` -/
def busyboxexe : S16 := [0x62, 0x75, 0x73, 0x79, 0x62, 0x6f, 0x78, 0x2e, 0x65, 0x78, 0x65]

/-- `C:\sh` -/
theorem starts_adjacent_iff_root :
    Adjacent (exebuf { started with modulefilename := copied true [0x43, 0x3a, 0x5c, 0x73, 0x68] } busyboxexe)
      ([0x43, 0x3a, 0x5c] ++ (busyboxexe ++ [0])) :=
  (starts_adjacent_iff started [0x43, 0x3a, 0x5c, 0x73, 0x68] busyboxexe [0x73, 0x68] true (by decide)).1.2.mpr
    (Or.inl (Or.inl (by decide)))

/-- `C:\aaa…\bbb…\sh.exe` -/
def nested : S16 :=
  [0x43, 0x3a, 0x5c] ++ List.replicate 200 0x61 ++ [0x5c] ++ List.replicate 200 0x62 ++
    [0x5c, 0x73, 0x68, 0x2e, 0x65, 0x78, 0x65]

/-- Both start the `busybox.exe` of `C:\aaa…`. -/
theorem ancestor_started :
    let win := { started with modulefilename := copied true nested }
    let above : S16 := [0x43, 0x3a, 0x5c] ++ List.replicate 200 0x61
    (¬ Adjacent (exebuf win busyboxexe) (moduledir nested ++ (busyboxexe ++ [0])) ∧
      (aliasmain win busyboxexe [0x73, 0x68]).calls = [(above ++ 0x5c :: busyboxexe, [0x73, 0x68])]) ∧
    (¬ Adjacent (Busybox.exebuf win) ((moduledir nested).dropLast ++ (Busybox.busybox ++ [0])) ∧
      (Busybox.run win).calls = [(above ++ 0x5c :: busyboxexe, [0x73, 0x68])]) := by
  refine ⟨⟨?_, by decide +kernel⟩, ?_, by decide +kernel⟩
  · rintro (h | h)
    · exact absurd h (by decide +kernel)
    · exact absurd h (by decide +kernel)
  · rintro (h | h)
    · exact absurd h (by decide +kernel)
    · exact absurd h (by decide +kernel)

end GnuWindows.Alias
