/-
  GnuWindows.PkgConfig.PlatformProofs — what the win32 platform layer gives and delivers.

  Proved:
  - `os_mapfile_eq`: a file is mapped as it is, however it is read, unless it fills what is
    left of the arena.
  - `console_writes`: a console gets well-formed UTF-16, in calls of at most 256 units.
-/
import GnuWindows.Lib.Cut
import GnuWindows.PkgConfig.Platform

namespace GnuWindows.PkgConfig

open GnuWindows.Lib.Transfer (Source Delivers collect collect_eq ofText ofText_delivers Calls)
open GnuWindows.Lib.Transcode (Codec)
open GnuWindows.Lib.Utf
open GnuWindows.VcFilt (Handle)
open String (utf8EncodeChar)

/-! ## Wide strings -/

theorem wide_eq {s : S8} {w : S16} (h : towide_ s = some w) : wide s = w := Option.get_of_eq_some _ h

theorem narrow_eq {w : S16} {s : S8} (h : fromwide_ w = some s) : narrow w = s := Option.get_of_eq_some _ h

theorem wide_utf8 (cs : List Char) : wide (utf8 cs) = utf16 cs := wide_eq (towide_utf8 cs)

theorem narrow_utf16 (cs : List Char) : narrow (utf16 cs) = utf8 cs := narrow_eq (fromwide_utf16 cs)

theorem wide_converted (s : S8) : wide s = towide.converted s := wide_eq (towide.convert_eq s)

/-- What a string is converted to, by its scalar values. -/
theorem wide_runes {s : S8} {cs : List Char} (h : towide.runes s = cs.map Char.toNat) : wide s = utf16 cs := by
  rw [wide_converted, Codec.converted, h, towide_encode]

/-! ## Files -/

theorem truncsize_le (n : Nat) : truncsize n ≤ n := by
  unfold truncsize
  split <;> omega

theorem truncsize_pos (n : Nat) (h : 0 < n) : 0 < truncsize n := by
  unfold truncsize
  split <;> omega

variable {H : Type}

/-- All that is left of a file is read, unless it fills the arena. -/
theorem mapped_eq (files : Files H) {left : H → S8} (hread : Delivers files.readfile left) (cap : Nat) (handle : H) :
    (collect files.readfile truncsize cap handle).1 = (left handle).take cap :=
  (collect_eq truncsize_le hread truncsize_pos cap handle).1

theorem os_mapfile_room (files : Files H) {left : H → S8} (hread : Delivers files.readfile left) {cap : Nat} {path : S8}
    {handle : H} (hfile : files.createfile (wide path) = some handle) (hroom : (left handle).length < cap) :
    os_mapfile files cap path = (.ok (left handle), (left handle).length) := by
  unfold os_mapfile
  simp only [hfile, mapped_eq files hread, List.length_take]
  rw [if_neg (by omega), List.take_of_length_le (Nat.le_of_lt hroom), Nat.min_eq_right (Nat.le_of_lt hroom)]

/-- For every file system whose open files are read in order, in pieces of any sizes that
    are not empty before the end: a file that there is room for is mapped as it is and takes
    its length of the arena; one that fills what is left cannot be read. -/
theorem os_mapfile_eq (files : Files H) {left : H → S8} (hread : Delivers files.readfile left) (cap : Nat)
    (path : S8) :
    os_mapfile files cap path =
      match files.createfile (wide path) with
      | none => (.notfound, 0)
      | some handle =>
        if (left handle).length < cap then (.ok (left handle), (left handle).length) else (.readerr, 0) := by
  cases hfile : files.createfile (wide path) with
  | none => rw [os_mapfile, hfile]
  | some handle =>
    by_cases hlt : (left handle).length < cap
    · simp only [os_mapfile_room files hread hfile hlt, if_pos hlt]
    · simp only [os_mapfile, hfile, mapped_eq files hread, List.length_take]
      rw [if_pos (by omega), if_neg hlt]

/-- Two bytes at a time. -/
theorem os_mapfile_eq_pairs :
    os_mapfile ⟨fun _ => some (S "Name: a"), ofText fun _ _ => 2⟩ 8 (S "a.pc\x00") = (.ok (S "Name: a"), 7) :=
  os_mapfile_eq ⟨fun _ => some (S "Name: a"), ofText fun _ _ => 2⟩ (ofText_delivers fun _ _ _ => by decide) 8
    (S "a.pc\x00")

/-! ## A console -/

section

variable {fd : Handle}

theorem isUtf16_nil : IsUtf16 [] := ⟨[], rfl⟩

theorem isUtf16_append {u v : S16} (hu : IsUtf16 u) (hv : IsUtf16 v) : IsUtf16 (u ++ v) := by
  obtain ⟨cs, rfl⟩ := hu
  obtain ⟨ds, rfl⟩ := hv
  exact ⟨cs ++ ds, List.flatMap_append.symm⟩

/-- The characters `cs` have been printed, after the calls before them. -/
structure Shown (fd : Handle) (before : List S16) (cs : List Char) (b : U16buf) : Prop where
  calls : Calls fd.writeconsole b.calls b.err
  rest : IsUtf16 b.buf
  sent : ∃ new, b.calls = before ++ new ∧ (∀ u ∈ new, u ≠ [] ∧ u.length ≤ 0x100 ∧ IsUtf16 u) ∧
    (b.err = false → new.flatten ++ b.buf = utf16 cs) ∧ new.flatten <+: utf16 cs

namespace Shown

variable {before : List S16} {cs : List Char} {b : U16buf}

theorem flush (h : Shown fd before cs b) : Shown fd before cs (flushconsole_ fd b) := by
  obtain ⟨hcalls, hrest, new, hnew, hunits, hall, hpart⟩ := h
  unfold flushconsole_
  split
  · rename_i hb
    have hflat : (new ++ [b.buf]).flatten = utf16 cs := by
      rw [List.flatten_append, List.flatten_singleton]
      exact hall hb.1
    refine ⟨.call b.buf (hb.1 ▸ hcalls), isUtf16_nil, new ++ [b.buf], ?_, ?_, ?_, ?_⟩
    · show b.calls ++ [b.buf] = _
      rw [hnew, List.append_assoc]
    · intro u hu
      rcases List.mem_append.mp hu with hu | hu
      · exact hunits u hu
      · obtain rfl := List.mem_singleton.mp hu
        exact ⟨hb.2, b.fits, hrest⟩
    · intro _
      rw [hflat, List.append_nil]
    · exact hflat ▸ List.prefix_rfl
  · rename_i hb
    refine ⟨hcalls, isUtf16_nil, new, hnew, hunits, fun herr => ?_, hpart⟩
    have hnil : b.buf = [] := not_not.mp fun hne => hb ⟨herr, hne⟩
    rw [← hall herr, hnil]

/-- The units of a character are put after the others. -/
theorem put (h : Shown fd before cs b) (c : Char) (hfits : (b.buf ++ utf16EncodeChar c).length ≤ 0x100) :
    Shown fd before (cs ++ [c]) ⟨b.buf ++ utf16EncodeChar c, b.err, b.calls, hfits⟩ := by
  obtain ⟨hcalls, hrest, new, hnew, hunits, hall, hpart⟩ := h
  have happend : utf16 (cs ++ [c]) = utf16 cs ++ utf16EncodeChar c := by
    rw [utf16, List.flatMap_append, List.flatMap_singleton]
    rfl
  refine ⟨hcalls, isUtf16_append hrest ⟨[c], by simp⟩, new, hnew, hunits, fun herr => ?_, ?_⟩
  · rw [happend, ← hall herr, List.append_assoc]
  · rw [happend]
    exact hpart.trans (List.prefix_append _ _)

theorem printc32_ (h : Shown fd before cs b) (c : Char) : Shown fd before (cs ++ [c]) (printc32_ fd b c.toNat) := by
  unfold PkgConfig.printc32_
  simp only [utf16encode_char]
  split
  · exact h.flush.put c _
  · exact h.put c _

theorem printrunes (h : Shown fd before cs b) {tail : S8} {ds : List Char}
    (hds : towide.runes tail = ds.map Char.toNat) : Shown fd before (cs ++ ds) (printrunes fd tail b) := by
  induction ds generalizing tail cs b with
  | nil =>
    have hnil : tail = [] := by
      by_contra hne
      rw [towide.runes_cons hne] at hds
      cases hds
    rw [PkgConfig.printrunes, dif_neg (not_not.mpr hnil), List.append_nil]
    exact h
  | cons d ds ih =>
    have hne : tail ≠ [] := by
      rintro rfl
      rw [towide.runes_nil] at hds
      cases hds
    rw [towide.runes_cons hne] at hds
    obtain ⟨hrune, htail⟩ := List.cons.inj hds
    have hrune : (utf8decode_ tail).rune = d.toNat := hrune
    rw [PkgConfig.printrunes, dif_pos hne, hrune, List.append_cons]
    exact ih (h.printc32_ d) htail

end Shown

theorem os_write_err {w : VcFilt.Written} (h : w.err = true) (s : S8) : os_write fd w s = w := if_pos h

theorem os_write_console (hfd : fd.console = true) {w : VcFilt.Written} (h : w.err = false) (s : S8) :
    os_write fd w s =
      ⟨(flushconsole_ fd (printrunes fd s ⟨[], false, w.consoles, Nat.zero_le _⟩)).err, w.files,
        (flushconsole_ fd (printrunes fd s ⟨[], false, w.consoles, Nat.zero_le _⟩)).calls⟩ :=
  (if_neg (by rw [h]; exact Bool.false_ne_true)).trans (if_pos hfd)

theorem os_write_file (hfd : fd.console = false) {w : VcFilt.Written} (h : w.err = false) (s : S8) :
    os_write fd w s = ⟨!fd.writefile w.files s, w.files ++ [s], w.consoles⟩ :=
  (if_neg (by rw [h]; exact Bool.false_ne_true)).trans (if_neg (by rw [hfd]; exact Bool.false_ne_true))

/-- What was written to a console of these texts. -/
structure Console (fd : Handle) (texts : List S8) (w : VcFilt.Written) : Prop where
  calls : Calls fd.writeconsole w.consoles w.err
  units : ∀ u ∈ w.consoles, u ≠ [] ∧ u.length ≤ 0x100 ∧ IsUtf16 u
  all : w.err = false → w.consoles.flatten = texts.flatMap wide
  part : w.consoles.flatten <+: texts.flatMap wide

theorem Console.os_write (hfd : fd.console = true) {texts : List S8} {w : VcFilt.Written} (h : Console fd texts w)
    (s : S8) : Console fd (texts ++ [s]) (os_write fd w s) := by
  have happend : (texts ++ [s]).flatMap wide = texts.flatMap wide ++ wide s := by
    rw [List.flatMap_append, List.flatMap_singleton]
  cases herr : w.err with
  | true =>
    rw [os_write_err herr]
    refine ⟨h.calls, h.units, fun hok => ?_, happend ▸ h.part.trans (List.prefix_append _ _)⟩
    rw [herr] at hok
    cases hok
  | false =>
    obtain ⟨cs, hcs⟩ := towide_runes s
    have hstart : Shown fd w.consoles [] ⟨[], false, w.consoles, Nat.zero_le _⟩ :=
      ⟨herr ▸ h.calls, isUtf16_nil, [], (List.append_nil _).symm, List.forall_mem_nil _, fun _ => rfl,
        List.nil_prefix⟩
    have hend := (hstart.printrunes hcs).flush
    have hroom := flushconsole_room fd (printrunes fd s ⟨[], false, w.consoles, Nat.zero_le _⟩)
    rw [os_write_console hfd herr]
    generalize flushconsole_ fd _ = b at hend hroom
    obtain ⟨hcalls, -, new, hnew, hunits, hall, hpart⟩ := hend
    rw [List.nil_append, ← wide_runes hcs] at hall hpart
    rw [hroom, List.append_nil] at hall
    refine ⟨hcalls, fun u hu => ?_, fun hok => ?_, ?_⟩
    · rcases List.mem_append.mp (hnew ▸ hu) with hu | hu
      · exact h.units u hu
      · exact hunits u hu
    · show b.calls.flatten = _
      rw [hnew, List.flatten_append, h.all herr, hall hok, happend]
    · show b.calls.flatten <+: _
      rw [hnew, List.flatten_append, h.all herr, happend]
      exact (List.prefix_append_right_inj _).mpr hpart

end

/-- A console gets the beginning of the strings' conversions, and without an error all of
    these. -/
theorem console_writes (fd : Handle) (hfd : fd.console = true) (texts : List S8) :
    Console fd texts (texts.foldl (os_write fd) unwritten) := by
  induction texts using List.reverseRecOn with
  | nil => exact ⟨.start, List.forall_mem_nil _, fun _ => rfl, List.nil_prefix⟩
  | append_singleton texts s ih =>
    rw [List.foldl_append]
    exact ih.os_write hfd s

end GnuWindows.PkgConfig
