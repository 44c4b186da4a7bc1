/-
  GnuWindows.VcFilt.Console — what is shown on a console, however long (`flushconsole`).

  As built, each block is decoded by itself, so the parts of a character that goes over the
  end of a block are shown as one U+FFFD for each byte, which is more than its own units.

  Proved: `console_text_iff`, the text is shown as it is if and only if no character goes
  over a multiple of the buffer's size; and every chunk fits in its array.
-/
import GnuWindows.VcFilt.Output
import GnuWindows.PkgConfig.WideProofs

namespace GnuWindows.VcFilt

open GnuWindows.Lib.Blocks (blocks blocks_append blocks_short)
open GnuWindows.Lib.Transcode (Codec)
open GnuWindows.PkgConfig (S8 utf8decode_ utf8decode_spec utf8decode_encode utf8bytes_char utf8bytes_eq utf16units
  utf8decode_continuation REPLACEMENT_CHARACTER toNat_byte utf8EncodeChar_ne_nil)
open GnuWindows.Lib.Utf (char_range utf8 utf8_cons length_utf8_replicate)
open String (utf8EncodeChar)

/-! ## Bytes that are not read as characters -/

/-- A byte that continues a character. -/
def Continues (b : UInt8) : Prop := 0x80 ≤ b.toNat ∧ b.toNat < 0xc0

/-- The first byte of a character, its others, and its units, which are fewer when there
    are others. -/
theorem utf8EncodeChar_shape (c : Char) : ∃ b bs, utf8EncodeChar c = b :: bs ∧ (∀ x ∈ bs, Continues x) ∧
    (bs ≠ [] → (utf16encode c.toNat).length < (utf8EncodeChar c).length) := by
  have hc := char_range c
  rw [← utf8bytes_char, utf8bytes_eq (by omega)]
  unfold utf16encode utf16units Continues
  generalize c.toNat = v at hc ⊢
  have hcont : ∀ n, 128 + n % 64 < 256 ∧ 0x80 ≤ 128 + n % 64 ∧ 128 + n % 64 < 0xc0 := fun n => by omega
  split
  · exact ⟨_, _, rfl, by simp, fun h => absurd rfl h⟩
  split
  · refine ⟨_, _, rfl, ?_, fun _ => by rw [if_neg (by omega)]; simp⟩
    simp only [List.forall_mem_singleton, toNat_byte (hcont _).1]
    exact (hcont _).2
  split
  · refine ⟨_, _, rfl, ?_, fun _ => by rw [if_neg (by omega)]; simp⟩
    simp only [List.forall_mem_cons, toNat_byte (hcont _).1]
    exact ⟨(hcont _).2, (hcont _).2, nofun⟩
  · refine ⟨_, _, rfl, ?_, fun _ => by rw [if_pos (by omega)]; simp⟩
    simp only [List.forall_mem_cons, toNat_byte (hcont _).1]
    exact ⟨(hcont _).2, (hcont _).2, (hcont _).2, nofun⟩

/-- Bytes that continue nothing are shown one by one. -/
theorem length_utf16_continues {s : S8} (h : ∀ b ∈ s, Continues b) (t : S8) :
    (utf16 (s ++ t)).length = s.length + (utf16 t).length := by
  induction s with
  | nil => exact (Nat.zero_add _).symm
  | cons b s ih =>
    rw [List.forall_mem_cons] at h
    have hdecode : utf8decode (b :: (s ++ t)) = ⟨s ++ t, REPLACEMENT_CHARACTER⟩ := utf8decode_continuation h.1 (s ++ t)
    rw [List.cons_append, utf16_cons (List.cons_ne_nil _ _), hdecode, List.length_append, ih h.2, List.length_cons]
    show 1 + _ = _
    omega

/-- Of a character that is not all there, each byte is shown. -/
theorem length_utf16_part {c : Char} {s u : S8} (hs : s ≠ []) (hu : u ≠ []) (h : utf8EncodeChar c = s ++ u) :
    (utf16 s).length = s.length ∧ ∀ t, (utf16 (u ++ t)).length = u.length + (utf16 t).length := by
  obtain ⟨b, bs, hbytes, hcont, -⟩ := utf8EncodeChar_shape c
  obtain ⟨b', s, rfl⟩ := List.exists_cons_of_ne_nil hs
  obtain ⟨rfl, rfl⟩ := List.cons.inj (hbytes.symm.trans h)
  have hcont := List.forall_mem_append.mp hcont
  refine ⟨?_, fun t => length_utf16_continues hcont.2 t⟩
  -- no character begins with a part of one
  have hreject : utf8decode (b :: s) = ⟨s, REPLACEMENT_CHARACTER⟩ := by
    rcases utf8decode_spec (List.cons_ne_nil b s) with ⟨d, t, hd, -⟩ | ⟨-, hreject⟩
    · have hboth : utf8EncodeChar c ++ [] = utf8EncodeChar d ++ (t ++ u) := by
        rw [h, List.append_nil, hd, List.append_assoc]
      have hdecode := congrArg utf8decode_ hboth
      rw [utf8decode_encode, utf8decode_encode] at hdecode
      have htail := congrArg PkgConfig.Utf8.tail hdecode
      exact absurd (List.append_eq_nil_iff.mp htail.symm).2 hu
    · exact hreject
  have hrest := length_utf16_continues hcont.1 []
  rw [List.append_nil, utf16_nil, List.length_nil, Nat.add_zero] at hrest
  rw [utf16_cons (List.cons_ne_nil _ _), hreject, List.length_append, hrest, List.length_cons]
  show 1 + _ = _
  omega

theorem decode_char (c : Char) (t : S8) : codec.decode (utf8EncodeChar c ++ t) = (t, c.toNat) := by
  show ((utf8decode_ _).tail, (utf8decode_ _).rune) = _
  rw [utf8decode_encode]

/-- No character begins here. -/
theorem decode_reject {s : S8} (h : ∀ c t, s ≠ utf8EncodeChar c ++ t) (hs : s ≠ []) :
    codec.decode s = (s.drop 1, REPLACEMENT_CHARACTER) := by
  rcases utf8decode_spec hs with ⟨c, t, hc, -⟩ | ⟨-, hreject⟩
  · exact absurd hc (h c t)
  · show ((utf8decode_ s).tail, (utf8decode_ s).rune) = _
    rw [hreject]

theorem codec_resyncs : codec.Resyncs where
  cut s t hs := by
    by_cases hchar : ∃ c w, s ++ t = utf8EncodeChar c ++ w
    · obtain ⟨c, w, hw⟩ := hchar
      rcases List.append_eq_append_iff.mp hw with ⟨u, hu, rfl⟩ | ⟨s', rfl, rfl⟩
      · by_cases hnil : u = []
        · -- it ends at the cut
          subst hnil
          rw [List.append_nil] at hu
          subst hu
          left
          have hself := decode_char c []
          rw [List.append_nil] at hself
          rw [List.nil_append, decode_char, hself]
          rfl
        · -- the cut goes through it
          right
          obtain ⟨hleft, hright⟩ := length_utf16_part hs hnil hu
          obtain ⟨b, bs, hbytes, -, hfewer⟩ := utf8EncodeChar_shape c
          have hmany : bs ≠ [] := by
            rintro rfl
            have hlen := congrArg List.length (hu.symm.trans hbytes)
            have h1 := List.length_pos_iff.mpr hs
            have h2 := List.length_pos_iff.mpr hnil
            rw [List.length_append, List.length_singleton] at hlen
            omega
          have hlen := congrArg List.length hu
          rw [List.length_append] at hlen
          have h2 := List.length_pos_iff.mpr hnil
          have hfewer := hfewer hmany
          have hcost := hright w
          have hwhole : codec.converted (s ++ (u ++ w)) = utf16encode c.toNat ++ codec.converted w := by
            have hne := List.append_ne_nil_of_left_ne_nil (utf8EncodeChar_ne_nil c) w
            rw [← List.append_assoc, ← hu, Codec.converted_cons hne, decode_char]
            rfl
          rw [hwhole, ← List.append_assoc, ← hu, decode_char]
          unfold utf16 at hleft hcost
          simp only [List.length_append]
          omega
      · -- it ends before the cut
        left
        rw [List.append_assoc, decode_char, decode_char]
    · left
      have hnone : ∀ c w, s ++ t ≠ utf8EncodeChar c ++ w := fun c w hw => hchar ⟨c, w, hw⟩
      have hfirst : ∀ c w, s ≠ utf8EncodeChar c ++ w := by
        intro c w hw
        exact hnone c (w ++ t) (by rw [hw, List.append_assoc])
      rw [decode_reject hnone (List.append_ne_nil_of_left_ne_nil hs t), decode_reject hfirst hs]
      obtain ⟨b, s, rfl⟩ := List.exists_cons_of_ne_nil hs
      rfl

/-! ## Texts -/

/-- For every sequence of writes to a console that is flushed in the end (`writeu8` writes a
    string of one byte), without an error: what the console gets is the UTF-16 form of the
    text, decoded from its start to its end, if and only if no character goes over a
    multiple of the buffer's size. Every chunk fits in the array that it is converted in. -/
theorem console_text_iff (fd : Handle) (hfd : fd.console = true) (writes : List S8)
    (herr : (flush (writes.foldl writes8 (newbufout fd))).dev.err = false) :
    ((flush (writes.foldl writes8 (newbufout fd))).dev.consoles.flatten = utf16 writes.flatten ↔
      ∀ k, k * BUFFER_CAP ≤ writes.flatten.length → codec.Reads writes.flatten (writes.flatten.drop (k * BUFFER_CAP))) ∧
      ∀ u ∈ (flush (writes.foldl writes8 (newbufout fd))).dev.consoles, u.length ≤ CONVERT_CAP := by
  rw [foldl_writes8] at herr ⊢
  refine ⟨?_, consoles_fit _⟩
  rw [consoles_text hfd herr]
  exact Codec.converted_blocks_iff codec_resyncs (by decide) writes.flatten

/-- A console that takes everything. -/
def screen : Handle := ⟨true, fun _ _ => true, fun _ _ => true⟩

theorem screen_ok (s : S8) : (flush (writes8 (newbufout screen) s)).dev.err = false :=
  err_ok (fun _ _ => rfl) (fun _ _ => rfl) s

theorem utf16_ascii (n : Nat) (t : S8) : utf16 (List.replicate n 0x61 ++ t) = List.replicate n 0x61 ++ utf16 t := by
  induction n with
  | zero => rfl
  | succ n ih =>
    rw [List.replicate_succ, List.cons_append, utf16_cons (List.cons_ne_nil _ _)]
    exact congrArg (List.cons 0x61) ih

/-- Characters are read one after another. -/
theorem reads_utf8 (cs : List Char) (t : S8) : codec.Reads (utf8 cs ++ t) t := by
  induction cs with
  | nil => exact .refl t
  | cons c cs ih =>
    rw [utf8_cons, List.append_assoc]
    have hne := List.append_ne_nil_of_left_ne_nil (utf8EncodeChar_ne_nil c) (utf8 cs ++ t)
    exact .step hne (by rw [decode_char]; exact ih)

/-- A character of two bytes, so often that it fills the buffer. -/
def full : S8 := utf8 (List.replicate 8192 'é')

theorem length_full : full.length = BUFFER_CAP := length_utf8_replicate 8192 'é'

/-- One more character after a full buffer. -/
theorem console_text_iff_screen :
    (flush ([full, [0xc3, 0xa9]].foldl writes8 (newbufout screen))).dev.consoles.flatten =
        utf16 (full ++ [0xc3, 0xa9]) ∧
      ∀ u ∈ (flush ([full, [0xc3, 0xa9]].foldl writes8 (newbufout screen))).dev.consoles, u.length ≤ CONVERT_CAP := by
  obtain ⟨htext, hfit⟩ := console_text_iff screen rfl [full, [0xc3, 0xa9]] (by rw [foldl_writes8]; exact screen_ok _)
  have hflatten : [full, [0xc3, 0xa9]].flatten = full ++ [0xc3, 0xa9] := by
    rw [List.flatten_cons, List.flatten_singleton]
  rw [hflatten] at htext
  refine ⟨htext.mpr fun k hk => ?_, hfit⟩
  rw [List.length_append, length_full] at hk
  obtain rfl | rfl : k = 0 ∨ k = 1 := by
    have hshort : ([0xc3, 0xa9] : S8).length = 2 := rfl
    unfold BUFFER_CAP at hk
    omega
  · exact .refl _
  · rw [Nat.one_mul, List.drop_left' length_full]
    exact reads_utf8 _ _

/-- A text of which only the last character is not ASCII. -/
def late : S8 := List.replicate 16383 0x61 ++ [0xc3, 0xa9]

/-- Its last character is shown as two others. -/
theorem late_character_broken : (flush (writes8 (newbufout screen) late)).dev.consoles.flatten ≠ utf16 late := by
  rw [consoles_text rfl (screen_ok _)]
  have hfirst : (List.replicate 16383 0x61 ++ [0xc3] : S8).length = BUFFER_CAP := by
    rw [List.length_append, List.length_replicate]
    rfl
  have hlate : late = (List.replicate 16383 0x61 ++ [0xc3]) ++ [0xa9] := by rw [List.append_assoc]; rfl
  have hblocks : blocks BUFFER_CAP late = [List.replicate 16383 0x61 ++ [0xc3], [0xa9]] := by
    rw [hlate, blocks_append (by decide) hfirst, blocks_short (by decide) (by decide)]
  rw [hblocks, late]
  simp only [List.flatMap_cons, List.flatMap_nil, utf16_ascii, List.append_assoc]
  intro h
  have hlast := List.append_cancel_left h
  have hlead : utf16 [0xc3] = [0xfffd] :=
    (utf16_cons (List.cons_ne_nil _ _)).trans (congrArg (List.cons 0xfffd) utf16_nil)
  have hwhole : utf16 [0xc3, 0xa9] = [0xe9] :=
    (utf16_cons (List.cons_ne_nil _ _)).trans (congrArg (List.cons 0xe9) utf16_nil)
  rw [hlead, hwhole] at hlast
  exact absurd (List.cons.inj hlast).1 (by decide)

end GnuWindows.VcFilt
