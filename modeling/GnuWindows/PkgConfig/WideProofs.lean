/-
  GnuWindows.PkgConfig.WideProofs — what the decoders accept and the conversions give.

  Proved:
  - `utf8decode_spec`, `utf16decode_spec`: a decoder reads what encodes a scalar value, and
    only that.
  - `towide_utf8`, `fromwide_utf16`: the conversions of well-formed strings.
-/
import GnuWindows.Lib.Utf
import GnuWindows.PkgConfig.Wide

namespace GnuWindows.PkgConfig

open GnuWindows.Lib.Utf
open GnuWindows.Lib.Transcode (Codec)
open String (utf8EncodeChar)

/-! ## Fields of bits -/

theorem and_f0 (b : UInt8) : b.toNat &&& 0xf0 = b.toNat / 16 * 16 :=
  and_upper (i := 4) (k := 4) b.toNat_lt

theorem and_c0 (b : UInt8) : b.toNat &&& 0xc0 = b.toNat / 64 * 64 :=
  and_upper (i := 6) (k := 2) b.toNat_lt

theorem and_3f (a : Nat) : a &&& 0x3f = a % 64 := and_mask 6 a
theorem and_3ff (a : Nat) : a &&& 0x3ff = a % 1024 := and_mask 10 a
theorem and_1f (a : Nat) : a &&& 0x1f = a % 32 := and_mask 5 a
theorem and_0f (a : Nat) : a &&& 0x0f = a % 16 := and_mask 4 a

theorem rune2 (a b : Nat) : (a &&& 0x1f) <<< 6 ||| (b &&& 0x3f) = a % 32 * 64 + b % 64 := by
  rw [and_1f, and_3f, shiftLeft_or _ (by omega)]; rfl

theorem rune3 (a b c : Nat) :
    (a &&& 0x0f) <<< 12 ||| (b &&& 0x3f) <<< 6 ||| (c &&& 0x3f) = a % 16 * 4096 + b % 64 * 64 + c % 64 := by
  rw [and_0f, and_3f, and_3f, Nat.lor_assoc, shiftLeft_or (b % 64) (by omega), shiftLeft_or _ (by omega)]
  omega

theorem rune4 (a b c d : Nat) :
    (a &&& 0x0f) <<< 18 ||| (b &&& 0x3f) <<< 12 ||| (c &&& 0x3f) <<< 6 ||| (d &&& 0x3f) =
      a % 16 * 262144 + b % 64 * 4096 + c % 64 * 64 + d % 64 := by
  rw [and_0f, and_3f, and_3f, and_3f, Nat.lor_assoc, Nat.lor_assoc, shiftLeft_or (c % 64) (by omega),
    shiftLeft_or (b % 64) (by omega), shiftLeft_or _ (by omega)]
  omega

/-- The bytes of a code point, without shifts. -/
theorem utf8bytes_eq {c : Nat} (h : c < 0x110000) :
    utf8bytes c =
      if c < 0x80 then [UInt8.ofNat c]
      else if c < 0x800 then [UInt8.ofNat (192 + c / 64), UInt8.ofNat (128 + c % 64)]
      else if c < 0x10000 then
        [UInt8.ofNat (224 + c / 4096), UInt8.ofNat (128 + c / 64 % 64), UInt8.ofNat (128 + c % 64)]
      else
        [UInt8.ofNat (240 + c / 262144), UInt8.ofNat (128 + c / 4096 % 64), UInt8.ofNat (128 + c / 64 % 64),
          UInt8.ofNat (128 + c % 64)] := by
  have h80 : ∀ a, 0x80 ||| (a &&& 63) = 128 + a % 64 := by
    intro a
    rw [and_3f]
    exact shiftLeft_or (i := 6) 2 (by omega)
  unfold utf8bytes
  simp only [h80, Nat.shiftRight_eq_div_pow]
  split
  · rfl
  split
  · rw [show 0xc0 ||| c / 2 ^ 6 = 192 + c / 64 from shiftLeft_or (i := 6) 3 (by omega)]
  split
  · rw [show 0xe0 ||| c / 2 ^ 12 = 224 + c / 4096 from shiftLeft_or (i := 4) 14 (by omega)]
  · rw [show 0xf0 ||| c / 2 ^ 18 = 240 + c / 262144 from shiftLeft_or (i := 3) 30 (by omega)]

theorem utf8bytes_char (c : Char) : utf8bytes c.toNat = utf8EncodeChar c := by
  have hc := char_range c
  rw [utf8bytes_eq (by omega)]
  unfold utf8EncodeChar
  simp only [show c.val.toNat = c.toNat from rfl]
  generalize c.toNat = v at hc ⊢
  by_cases h1 : v < 0x80
  · rw [if_pos h1, if_pos (by omega)]
  by_cases h2 : v < 0x800
  · rw [if_neg h1, if_pos h2, if_neg (by omega), if_pos (by omega)]
    rw [show v / 64 % 32 + 192 = 192 + v / 64 by omega, show v % 64 + 128 = 128 + v % 64 by omega]
  by_cases h3 : v < 0x10000
  · rw [if_neg h1, if_neg h2, if_pos h3, if_neg (by omega), if_neg (by omega), if_pos (by omega)]
    rw [show v / 4096 % 16 + 224 = 224 + v / 4096 by omega, show v / 64 % 64 + 128 = 128 + v / 64 % 64 by omega,
      show v % 64 + 128 = 128 + v % 64 by omega]
  · rw [if_neg h1, if_neg h2, if_neg h3, if_neg (by omega), if_neg (by omega), if_neg (by omega)]
    rw [show v / 262144 % 8 + 240 = 240 + v / 262144 by omega,
      show v / 4096 % 64 + 128 = 128 + v / 4096 % 64 by omega, show v / 64 % 64 + 128 = 128 + v / 64 % 64 by omega,
      show v % 64 + 128 = 128 + v % 64 by omega]

/-! ## What `utf8decode_` accepts -/

theorem utf8decode_one {b : UInt8} (s : S8) (h : b.toNat < 0x80) : utf8decode_ (b :: s) = ⟨s, b.toNat⟩ := by
  simp only [utf8decode_, and_f0]
  rw [if_neg (by omega), if_neg (by omega), if_neg (by omega), if_neg (by omega)]

theorem utf8decode_continuation {b : UInt8} (h : 0x80 ≤ b.toNat ∧ b.toNat < 0xc0) (s : S8) :
    utf8decode_ (b :: s) = ⟨s, REPLACEMENT_CHARACTER⟩ := by
  simp only [utf8decode_, and_f0, List.drop_succ_cons, List.drop_zero]
  rw [if_neg (by omega), if_neg (by omega), if_neg (by omega), if_pos (by omega)]

theorem utf8decode_two {b b1 : UInt8} (s : S8) (h : 0xc0 ≤ b.toNat ∧ b.toNat < 0xe0) :
    utf8decode_ (b :: b1 :: s) =
      if b1.toNat / 64 * 64 = 0x80 ∧ 0x80 ≤ b.toNat % 32 * 64 + b1.toNat % 64 then
        ⟨s, b.toNat % 32 * 64 + b1.toNat % 64⟩
      else ⟨b1 :: s, REPLACEMENT_CHARACTER⟩ := by
  simp only [utf8decode_, and_f0, and_c0, rune2, List.drop_succ_cons, List.drop_zero]
  rw [if_pos (by omega)]
  grind

theorem utf8decode_three {b b1 b2 : UInt8} (s : S8) (h : 0xe0 ≤ b.toNat ∧ b.toNat < 0xf0) :
    utf8decode_ (b :: b1 :: b2 :: s) =
      let rune := b.toNat % 16 * 4096 + b1.toNat % 64 * 64 + b2.toNat % 64
      if b1.toNat / 64 * 64 = 0x80 ∧ b2.toNat / 64 * 64 = 0x80 ∧ 0x800 ≤ rune ∧ ¬ (0xd800 ≤ rune ∧ rune ≤ 0xdfff) then
        ⟨s, rune⟩
      else ⟨b1 :: b2 :: s, REPLACEMENT_CHARACTER⟩ := by
  simp only [utf8decode_, and_f0, and_c0, rune3, List.drop_succ_cons, List.drop_zero]
  rw [if_neg (by omega), if_pos (by omega)]
  grind

theorem utf8decode_four {b b1 b2 b3 : UInt8} (s : S8) (h : 0xf0 ≤ b.toNat) :
    utf8decode_ (b :: b1 :: b2 :: b3 :: s) =
      let rune := b.toNat % 16 * 262144 + b1.toNat % 64 * 4096 + b2.toNat % 64 * 64 + b3.toNat % 64
      if b1.toNat / 64 * 64 = 0x80 ∧ b2.toNat / 64 * 64 = 0x80 ∧ b3.toNat / 64 * 64 = 0x80 ∧ 0x10000 ≤ rune ∧
          rune ≤ 0x10ffff then
        ⟨s, rune⟩
      else ⟨b1 :: b2 :: b3 :: s, REPLACEMENT_CHARACTER⟩ := by
  have := b.toNat_lt
  simp only [utf8decode_, and_f0, and_c0, rune4, List.drop_succ_cons, List.drop_zero]
  rw [if_neg (by omega), if_neg (by omega), if_pos (by omega)]
  grind

theorem toNat_byte {n : Nat} (h : n < 256) : (UInt8.ofNat n).toNat = n := UInt8.toNat_ofNat_of_lt' h

/-- The bytes of a scalar value are read back. -/
theorem utf8decode_encode (c : Char) (t : S8) : utf8decode_ (utf8EncodeChar c ++ t) = ⟨t, c.toNat⟩ := by
  have hc := char_range c
  rw [← utf8bytes_char, utf8bytes_eq (by omega)]
  generalize c.toNat = v at hc ⊢
  split
  · rename_i h1
    have hb := toNat_byte (n := v) (by omega)
    rw [List.cons_append, utf8decode_one _ (by omega), hb]; rfl
  split
  · have hb := toNat_byte (n := 192 + v / 64) (by omega)
    have hb1 := toNat_byte (n := 128 + v % 64) (by omega)
    rw [List.cons_append, List.cons_append, utf8decode_two _ (by omega), hb, hb1, if_pos (by omega)]
    rw [show (192 + v / 64) % 32 * 64 + (128 + v % 64) % 64 = v by omega]; rfl
  split
  · have hb := toNat_byte (n := 224 + v / 4096) (by omega)
    have hb1 := toNat_byte (n := 128 + v / 64 % 64) (by omega)
    have hb2 := toNat_byte (n := 128 + v % 64) (by omega)
    rw [List.cons_append, List.cons_append, List.cons_append, utf8decode_three _ (by omega), hb, hb1, hb2]
    have hv : (224 + v / 4096) % 16 * 4096 + (128 + v / 64 % 64) % 64 * 64 + (128 + v % 64) % 64 = v := by omega
    simp only [hv]
    rw [if_pos (by omega)]; rfl
  · have hb := toNat_byte (n := 240 + v / 262144) (by omega)
    have hb1 := toNat_byte (n := 128 + v / 4096 % 64) (by omega)
    have hb2 := toNat_byte (n := 128 + v / 64 % 64) (by omega)
    have hb3 := toNat_byte (n := 128 + v % 64) (by omega)
    rw [List.cons_append, List.cons_append, List.cons_append, List.cons_append, utf8decode_four _ (by omega), hb, hb1,
      hb2, hb3]
    have hv : (240 + v / 262144) % 16 * 262144 + (128 + v / 4096 % 64) % 64 * 4096 + (128 + v / 64 % 64) % 64 * 64 +
        (128 + v % 64) % 64 = v := by omega
    simp only [hv]
    rw [if_pos (by omega)]; rfl

theorem byte_ext {b : UInt8} {n : Nat} (h : n = b.toNat) : UInt8.ofNat n = b := by rw [h, UInt8.ofNat_toNat]

/-- What is not the bytes of a scalar value costs one byte. -/
theorem utf8decode_cases {s : S8} (h : s ≠ []) :
    (∃ c t, s = utf8EncodeChar c ++ t) ∨ utf8decode_ s = ⟨s.drop 1, REPLACEMENT_CHARACTER⟩ := by
  -- a rune that is read is a scalar value, and its bytes are those it was read from
  have hscalar : ∀ {v : Nat} {u t : S8}, (v < 0xd800 ∨ (0xdfff < v ∧ v < 0x110000)) → utf8bytes v = u →
      ∃ c t', u ++ t = utf8EncodeChar c ++ t' := by
    intro v u t hv hu
    obtain ⟨c, rfl⟩ := exists_char hv
    exact ⟨c, t, by rw [← utf8bytes_char, hu]⟩
  obtain ⟨b, s, rfl⟩ := List.exists_cons_of_ne_nil h
  have hb := b.toNat_lt
  by_cases h1 : b.toNat < 0x80
  · refine Or.inl (hscalar (v := b.toNat) (u := [b]) (t := s) (by omega) ?_)
    rw [utf8bytes_eq (by omega), if_pos h1, byte_ext rfl]
  by_cases h2 : b.toNat < 0xc0
  · right
    simp only [utf8decode_, and_f0]
    rw [if_neg (by omega), if_neg (by omega), if_neg (by omega), if_pos (by omega)]
  by_cases h3 : b.toNat < 0xe0
  · cases s with
    | nil => right; simp only [utf8decode_, and_f0]; rw [if_pos (by omega)]
    | cons b1 s =>
      rw [utf8decode_two s (by omega)]
      split
      · rename_i hacc
        refine Or.inl (hscalar (v := b.toNat % 32 * 64 + b1.toNat % 64) (u := [b, b1]) (t := s) (by omega) ?_)
        rw [utf8bytes_eq (by omega), if_neg (by omega), if_pos (by omega), byte_ext (b := b) (by omega),
          byte_ext (b := b1) (by omega)]
      · right; rfl
  by_cases h4 : b.toNat < 0xf0
  · rcases s with _ | ⟨b1, _ | ⟨b2, s⟩⟩
    · right; simp only [utf8decode_, and_f0]; rw [if_neg (by omega), if_pos (by omega)]
    · right; simp only [utf8decode_, and_f0]; rw [if_neg (by omega), if_pos (by omega)]
    · rw [utf8decode_three s (by omega)]
      simp only
      split
      · rename_i hacc
        have hb1 := b1.toNat_lt
        have hb2 := b2.toNat_lt
        refine Or.inl (hscalar (v := b.toNat % 16 * 4096 + b1.toNat % 64 * 64 + b2.toNat % 64) (u := [b, b1, b2])
          (t := s) (by omega) ?_)
        rw [utf8bytes_eq (by omega), if_neg (by omega), if_neg (by omega), if_pos (by omega),
          byte_ext (b := b) (by omega), byte_ext (b := b1) (by omega), byte_ext (b := b2) (by omega)]
      · right; rfl
  · rcases s with _ | ⟨b1, _ | ⟨b2, _ | ⟨b3, s⟩⟩⟩
    · right; simp only [utf8decode_, and_f0]; rw [if_neg (by omega), if_neg (by omega), if_pos (by omega)]
    · right; simp only [utf8decode_, and_f0]; rw [if_neg (by omega), if_neg (by omega), if_pos (by omega)]
    · right; simp only [utf8decode_, and_f0]; rw [if_neg (by omega), if_neg (by omega), if_pos (by omega)]
    · rw [utf8decode_four s (by omega)]
      simp only
      split
      · rename_i hacc
        have hb1 := b1.toNat_lt
        have hb2 := b2.toNat_lt
        have hb3 := b3.toNat_lt
        refine Or.inl (hscalar
          (v := b.toNat % 16 * 262144 + b1.toNat % 64 * 4096 + b2.toNat % 64 * 64 + b3.toNat % 64)
          (u := [b, b1, b2, b3]) (t := s) (by omega) ?_)
        rw [utf8bytes_eq (by omega), if_neg (by omega), if_neg (by omega), if_neg (by omega),
          byte_ext (b := b) (by omega), byte_ext (b := b1) (by omega), byte_ext (b := b2) (by omega),
          byte_ext (b := b3) (by omega)]
      · right; rfl

/-- Exactly one of: a scalar value's bytes come first and are read; or none do, and one
    byte gives U+FFFD. -/
theorem utf8decode_spec {s : S8} (h : s ≠ []) :
    (∃ c t, s = utf8EncodeChar c ++ t ∧ utf8decode_ s = ⟨t, c.toNat⟩) ∨
      ((∀ c t, s ≠ utf8EncodeChar c ++ t) ∧ utf8decode_ s = ⟨s.drop 1, REPLACEMENT_CHARACTER⟩) := by
  by_cases hs : ∃ c t, s = utf8EncodeChar c ++ t
  · obtain ⟨c, t, rfl⟩ := hs
    exact Or.inl ⟨c, t, rfl, utf8decode_encode c t⟩
  · refine Or.inr ⟨fun c t e => hs ⟨c, t, e⟩, (utf8decode_cases h).resolve_left hs⟩

/-! ## What `utf16decode_` accepts -/

theorem toNat_unit {n : Nat} (h : n < 65536) : (UInt16.ofNat n).toNat = n := UInt16.toNat_ofNat_of_lt' h

theorem unit_ext {u : UInt16} {n : Nat} (h : n = u.toNat) : UInt16.ofNat n = u := by rw [h, UInt16.ofNat_toNat]

theorem utf16units_char (c : Char) : utf16units c.toNat = utf16EncodeChar c := by
  have hc := char_range c
  unfold utf16units utf16EncodeChar
  generalize c.toNat = v at hc ⊢
  by_cases h : v < 0x10000
  · rw [if_neg (by omega), if_pos h]
  · rw [if_pos (by omega), if_neg h, Nat.shiftRight_eq_div_pow, and_3ff, Nat.add_comm,
      Nat.add_comm (_ % _)]

theorem utf16decode_encode (c : Char) (t : S16) : utf16decode_ (utf16EncodeChar c ++ t) = ⟨t, c.toNat⟩ := by
  have hc := char_range c
  unfold utf16EncodeChar
  generalize c.toNat = v at hc ⊢
  split
  · have hu := toNat_unit (n := v) (by omega)
    simp only [List.cons_append, List.nil_append, utf16decode_, hu]
    rw [if_neg (by omega), if_neg (by omega)]
  · have hhi := toNat_unit (n := 0xd800 + (v - 0x10000) / 0x400) (by omega)
    have hlo := toNat_unit (n := 0xdc00 + (v - 0x10000) % 0x400) (by omega)
    simp only [List.cons_append, List.nil_append, utf16decode_, hhi, hlo, Nat.shiftLeft_eq]
    have hv : 0x10000 + (0xd800 + (v - 0x10000) / 0x400 - 0xd800) * 2 ^ 10 + (0xdc00 + (v - 0x10000) % 0x400 - 0xdc00) =
        v := by omega
    rw [if_neg (by omega), if_pos (by omega), if_neg (by omega), hv]

theorem utf16decode_cases {s : S16} (h : s ≠ []) :
    (∃ c t, s = utf16EncodeChar c ++ t) ∨ utf16decode_ s = ⟨s.drop 1, REPLACEMENT_CHARACTER⟩ := by
  have hscalar : ∀ {v : Nat} {u t : S16}, (v < 0xd800 ∨ (0xdfff < v ∧ v < 0x110000)) → utf16units v = u →
      ∃ c t', u ++ t = utf16EncodeChar c ++ t' := by
    intro v u t hv hu
    obtain ⟨c, rfl⟩ := exists_char hv
    exact ⟨c, t, by rw [← utf16units_char, hu]⟩
  obtain ⟨u, s, rfl⟩ := List.exists_cons_of_ne_nil h
  have hu := u.toNat_lt
  by_cases hlow : 0xdc00 ≤ u.toNat ∧ u.toNat ≤ 0xdfff
  · right; simp only [utf16decode_]; rw [if_pos hlow]
  by_cases hhigh : 0xd800 ≤ u.toNat ∧ u.toNat ≤ 0xdbff
  · cases s with
    | nil => right; simp only [utf16decode_]; rw [if_neg hlow, if_pos hhigh]
    | cons lo s =>
      by_cases hlo : lo.toNat < 0xdc00 ∨ 0xdfff < lo.toNat
      · right; simp only [utf16decode_]; rw [if_neg hlow, if_pos hhigh, if_pos hlo]
      · refine Or.inl (hscalar (v := 0x10000 + (u.toNat - 0xd800) * 0x400 + (lo.toNat - 0xdc00)) (u := [u, lo]) (t := s)
          (by omega) ?_)
        rw [utf16units, if_pos (by omega), Nat.shiftRight_eq_div_pow, and_3ff, unit_ext (u := u) (by omega),
          unit_ext (u := lo) (by omega)]
  · refine Or.inl (hscalar (v := u.toNat) (u := [u]) (t := s) (by omega) ?_)
    rw [utf16units, if_neg (by omega), unit_ext rfl]

theorem utf16decode_spec {s : S16} (h : s ≠ []) :
    (∃ c t, s = utf16EncodeChar c ++ t ∧ utf16decode_ s = ⟨t, c.toNat⟩) ∨
      ((∀ c t, s ≠ utf16EncodeChar c ++ t) ∧ utf16decode_ s = ⟨s.drop 1, REPLACEMENT_CHARACTER⟩) := by
  by_cases hs : ∃ c t, s = utf16EncodeChar c ++ t
  · obtain ⟨c, t, rfl⟩ := hs
    exact Or.inl ⟨c, t, rfl, utf16decode_encode c t⟩
  · refine Or.inr ⟨fun c t e => hs ⟨c, t, e⟩, (utf16decode_cases h).resolve_left hs⟩

/-! ## Conversions -/

theorem encodable_char (c : Char) : encodable (c.toNat : Int) = true := by
  have hc := char_range c
  simp only [encodable, Bool.not_eq_true', Bool.or_eq_false_iff, Bool.and_eq_false_iff, decide_eq_false_iff_not]
  omega

theorem utf8encode_char (c : Char) : utf8encode_ (c.toNat : Int) = utf8EncodeChar c := by
  rw [utf8encode_, if_pos (encodable_char c), Int.toNat_natCast, utf8bytes_char]

theorem utf16encode_char (c : Char) : utf16encode_ (c.toNat : Int) = utf16EncodeChar c := by
  rw [utf16encode_, if_pos (encodable_char c), Int.toNat_natCast, utf16units_char]

theorem utf8EncodeChar_ne_nil (c : Char) : utf8EncodeChar c ≠ [] := by
  rw [← List.length_pos_iff, String.length_utf8EncodeChar]
  exact c.utf8Size_pos

theorem utf16EncodeChar_ne_nil (c : Char) : utf16EncodeChar c ≠ [] := by
  unfold utf16EncodeChar
  split <;> exact List.cons_ne_nil _ _

theorem replacement_char : ∃ c : Char, REPLACEMENT_CHARACTER = c.toNat := ⟨'\uFFFD', rfl⟩

/-- Every rune a conversion reads is a scalar value. -/
theorem towide_runes (s : S8) : ∃ cs : List Char, towide.runes s = cs.map Char.toNat := by
  refine towide.runes_values (fun s h => ?_) s
  show ∃ c : Char, (utf8decode_ s).rune = c.toNat
  rcases utf8decode_spec h with ⟨c, t, _, hd⟩ | ⟨_, hd⟩
  · exact ⟨c, by rw [hd]⟩
  · rw [hd]; exact replacement_char

theorem fromwide_runes (w : S16) : ∃ cs : List Char, fromwide.runes w = cs.map Char.toNat := by
  refine fromwide.runes_values (fun w h => ?_) w
  show ∃ c : Char, (utf16decode_ w).rune = c.toNat
  rcases utf16decode_spec h with ⟨c, t, _, hd⟩ | ⟨_, hd⟩
  · exact ⟨c, by rw [hd]⟩
  · rw [hd]; exact replacement_char

theorem towide_encode (cs : List Char) : (cs.map Char.toNat).flatMap towide.encode = utf16 cs := by
  rw [List.flatMap_map, show (fun c : Char => towide.encode c.toNat) = utf16EncodeChar from funext utf16encode_char]
  rfl

theorem fromwide_encode (cs : List Char) : (cs.map Char.toNat).flatMap fromwide.encode = utf8 cs := by
  rw [List.flatMap_map, show (fun c : Char => fromwide.encode c.toNat) = utf8EncodeChar from funext utf8encode_char]
  rfl

/-- Scalar values go to UTF-16 and back. -/
theorem towide_utf8 (cs : List Char) : towide_ (utf8 cs) = some (utf16 cs) := by
  rw [towide_, Codec.convert_eq, utf8, towide.runes_flatMap Char.toNat cs
    (fun c _ => utf8EncodeChar_ne_nil c) ?_, towide_encode]
  intro c _ t
  show ((utf8decode_ _).tail, (utf8decode_ _).rune) = _
  rw [utf8decode_encode]

theorem fromwide_utf16 (cs : List Char) : fromwide_ (utf16 cs) = some (utf8 cs) := by
  rw [fromwide_, Codec.convert_eq, utf16, fromwide.runes_flatMap Char.toNat cs
    (fun c _ => utf16EncodeChar_ne_nil c) ?_, fromwide_encode]
  intro c _ t
  show ((utf16decode_ _).tail, (utf16decode_ _).rune) = _
  rw [utf16decode_encode]

/-- For any scalar values, any bytes and any units: the conversions take UTF-8 to UTF-16
    and back; they always end, inside the memory that was counted, which they fill, with
    well-formed strings; and `utf8decode_` reads the bytes of a scalar value where there
    are some, and takes one byte for U+FFFD where there are none. -/
theorem conversions :
    (∀ cs : List Char, towide_ (utf8 cs) = some (utf16 cs) ∧ fromwide_ (utf16 cs) = some (utf8 cs)) ∧
      (∀ s : S8, ∃ w, towide_ s = some w ∧ w.length = towide.count s 0 ∧ IsUtf16 w) ∧
      (∀ w : S16, ∃ s, fromwide_ w = some s ∧ s.length = fromwide.count w 0 ∧ IsUtf8 s) ∧
      ∀ (b : UInt8) (s : S8),
        (∃ c t, b :: s = utf8EncodeChar c ++ t ∧ utf8decode_ (b :: s) = ⟨t, c.toNat⟩) ∨
          ((∀ c t, b :: s ≠ utf8EncodeChar c ++ t) ∧ utf8decode_ (b :: s) = ⟨s, REPLACEMENT_CHARACTER⟩) := by
  refine ⟨fun cs => ⟨towide_utf8 cs, fromwide_utf16 cs⟩, ?_, ?_, fun b s => utf8decode_spec (List.cons_ne_nil b s)⟩
  · intro s
    obtain ⟨cs, hcs⟩ := towide_runes s
    refine ⟨_, towide.convert_eq s, ?_, cs, ?_⟩
    · rw [towide.count_eq, Nat.zero_add]
    · rw [hcs, towide_encode]
  · intro w
    obtain ⟨cs, hcs⟩ := fromwide_runes w
    refine ⟨_, fromwide.convert_eq w, ?_, cs, ?_⟩
    · rw [fromwide.count_eq, Nat.zero_add]
    · rw [hcs, fromwide_encode]

end GnuWindows.PkgConfig
