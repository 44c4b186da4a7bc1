/-
  GnuWindows.Peports.Unused — unused ordinals in the listing of the exports.

  An entry of the address table that is zero is an ordinal that is not used. The second
  loop over the export directory asks `seen` only, never this table, so it lists such
  ordinals as exports without a name.

  Proved:
  - `nonameline_mem_iff`: the line of an ordinal without a name is one of the listing
    exactly when no entry refers to it. No name and no other ordinal is printed as that.
  - `noname_used_iff`: the lines without a name are all of used ordinals exactly when some
    entry refers to each unused one.
-/
import GnuWindows.Peports.ExportTable
import GnuWindows.PkgConfig.VersionOrder

namespace GnuWindows.Peports

open GnuWindows.PkgConfig (S8 S value value_snoc)

/-! ## Numbers and names as they are printed -/

theorem toNat_digit {d : Nat} (h : d < 10) : (UInt8.ofNat d + 0x30).toNat = d + 0x30 := by
  rw [UInt8.toNat_add, UInt8.toNat_ofNat']
  show (d % 256 + 48) % 256 = d + 48
  omega

/-- The digits of a number write it. -/
theorem value_digits (x : Nat) : value (digits x) = x := by
  induction x using digits.induct with
  | case1 x h =>
    rw [digits_eq, if_pos h, value_snoc, toNat_digit (Nat.mod_lt _ (by decide))]
    show 10 * 0 + _ = x
    omega
  | case2 x h ih =>
    rw [digits_eq, if_neg h, value_snoc, ih, toNat_digit (Nat.mod_lt _ (by decide))]
    omega

theorem digits_range (x : Nat) : ∀ c ∈ digits x, 0x30 ≤ c.toNat ∧ c.toNat ≤ 0x39 := by
  induction x using digits.induct with
  | case1 x h =>
    rw [digits_eq, if_pos h]
    refine List.forall_mem_singleton.mpr ?_
    rw [toNat_digit (Nat.mod_lt _ (by decide))]
    omega
  | case2 x h ih =>
    rw [digits_eq, if_neg h]
    refine List.forall_mem_append.mpr ⟨ih, List.forall_mem_singleton.mpr ?_⟩
    rw [toNat_digit (Nat.mod_lt _ (by decide))]
    omega

/-- No digit is the byte. -/
theorem not_mem_digits (x : Nat) {c : UInt8} (h : c.toNat < 0x30) : c ∉ digits x := by
  intro hc
  have := digits_range x c hc
  omega

theorem hexdigit_range {n : UInt8} (h : n.toNat < 16) :
    (0x30 ≤ (hexdigit n).toNat ∧ (hexdigit n).toNat ≤ 0x39) ∨
      (0x61 ≤ (hexdigit n).toNat ∧ (hexdigit n).toNat ≤ 0x66) := by
  unfold hexdigit
  split
  · next hlt =>
    have hn : n.toNat < 10 := UInt8.lt_iff_toNat_lt.mp hlt
    rw [UInt8.toNat_add]
    show (48 ≤ (48 + n.toNat) % 256 ∧ (48 + n.toNat) % 256 ≤ 57) ∨ _
    omega
  · next hge =>
    have hn : 10 ≤ n.toNat := UInt8.le_iff_toNat_le.mp (UInt8.not_lt.mp hge)
    rw [UInt8.toNat_add, UInt8.toNat_sub_of_le _ _ (UInt8.not_lt.mp hge)]
    show _ ∨ (97 ≤ (97 + (n.toNat - 10)) % 256 ∧ (97 + (n.toNat - 10)) % 256 ≤ 102)
    omega

/-- What is printed of a byte: no control character, nothing past ASCII and no bracket. -/
def Printable (b : UInt8) : Prop := 0x20 ≤ b.toNat ∧ b.toNat ≤ 0x7f ∧ b.toNat ≠ 0x3c ∧ b.toNat ≠ 0x3e

theorem escaped_printable (c : UInt8) : ∀ b ∈ escaped c, Printable b := by
  unfold escaped Printable
  split
  · have hhigh : (c >>> 4).toNat < 16 := by
      have hc := c.toNat_lt
      rw [UInt8.toNat_shiftRight]
      show c.toNat >>> 4 < 16
      rw [Nat.shiftRight_eq_div_pow]
      omega
    have hlow : (c &&& 15).toNat < 16 := by
      rw [UInt8.toNat_and]
      exact Nat.lt_succ_of_le Nat.and_le_right
    have h1 := hexdigit_range hhigh
    have h2 := hexdigit_range hlow
    simp only [List.forall_mem_cons, List.not_mem_nil, false_implies, implies_true, and_true]
    exact ⟨by decide, by decide, by omega, by omega⟩
  · next h =>
    refine List.forall_mem_singleton.mpr ?_
    simp only [escapes, Bool.or_eq_true, decide_eq_true_eq, beq_iff_eq, not_or, UInt8.not_lt] at h
    obtain ⟨⟨⟨⟨hlow, hhigh⟩, hlt⟩, hgt⟩, -⟩ := h
    exact ⟨UInt8.le_iff_toNat_le.mp hlow, UInt8.le_iff_toNat_le.mp hhigh, fun he => hlt (UInt8.toNat_inj.mp he),
      fun he => hgt (UInt8.toNat_inj.mp he)⟩

theorem escaped_ne (c : UInt8) : escaped c ≠ [] := by
  unfold escaped
  split <;> exact List.cons_ne_nil _ _

/-- The empty name is printed as the brackets, any other without them. -/
theorem nametext_printable (s : Slice) :
    (s.getD [] = [] ∧ nametext s = S "<>") ∨
      (s.getD [] ≠ [] ∧ nametext s = (s.getD []).flatMap escaped ∧ nametext s ≠ [] ∧
        ∀ b ∈ nametext s, Printable b) := by
  unfold nametext
  cases s.getD [] with
  | nil => exact .inl ⟨rfl, rfl⟩
  | cons c rest =>
    refine .inr ⟨List.cons_ne_nil _ _, rfl, fun he => ?_, fun b hb => ?_⟩
    · have he : escaped c ++ rest.flatMap escaped = [] := he
      exact escaped_ne c (List.append_eq_nil_iff.mp he).1
    · obtain ⟨d, -, hd⟩ := List.mem_flatMap.mp hb
      exact escaped_printable d b hd

/-- A name is printed without a newline, and begins with `<` only when it is empty. -/
theorem nametext_cases (s : Slice) :
    nametext s = S "<>" ∨ ∃ b rest, nametext s = b :: rest ∧ b.toNat ≠ 0x3c ∧ ∀ c ∈ b :: rest, 0x20 ≤ c.toNat := by
  rcases nametext_printable s with ⟨-, h⟩ | ⟨-, -, hne, hall⟩
  · exact .inl h
  · right
    obtain ⟨b, rest, h⟩ := List.exists_cons_of_ne_nil hne
    rw [h] at hall
    exact ⟨b, rest, h, (hall b List.mem_cons_self).2.2.1, fun c hc => (hall c hc).1⟩

theorem newline_not_mem_nametext (s : Slice) : (0x0a : UInt8) ∉ nametext s := by
  intro hmem
  rcases nametext_cases s with h | ⟨b, rest, h, -, hall⟩
  · rw [h] at hmem
    revert hmem
    decide
  · rw [h] at hmem
    exact absurd (hall _ hmem) (by decide)

/-! ## The lines of a listing -/

/-- A text cut at its newlines. -/
def lines (s : S8) : List S8 := s.splitOn 0x0a

theorem lines_append {l : S8} (rest : S8) (h : (0x0a : UInt8) ∉ l) : lines (l ++ (0x0a :: rest)) = l :: lines rest :=
  List.splitOn_append_cons_self_of_not_mem h rest

theorem lines_flatMap {α : Type} {l : List α} {f : α → S8} (h : ∀ a ∈ l, (0x0a : UInt8) ∉ f a) (rest : S8) :
    lines ((l.flatMap fun a => f a ++ [0x0a]) ++ rest) = l.map f ++ lines rest := by
  induction l with
  | nil => rfl
  | cons a l ih =>
    obtain ⟨ha, hl⟩ := List.forall_mem_cons.mp h
    rw [List.flatMap_cons, List.append_assoc, List.append_assoc, List.singleton_append, lines_append _ ha, ih hl]
    rfl

section

variable {dll : S8} {image : Image dll} (dir : Exportdirectory image)

/-- The line of a named entry, without its end. -/
def Exportdirectory.entryline (e : Exportentry) : S8 :=
  S "\t" ++ (digits (e.ordinal.toNat + dir.ordbase.toNat) ++ (S "\t" ++
    (nametext (nullterm (image.mem e.name)) ++ moduletext (dir.module e.addr))))

/-- The line of an ordinal without a name, without its end. -/
def Exportdirectory.nonameline (k : Nat) : S8 := S "\t" ++ (digits (k + dir.ordbase.toNat) ++ S "\t<NONAME>")

theorem line_eq (e : Exportentry) : dir.line e = dir.entryline e ++ [0x0a] := by
  simp only [Exportdirectory.line, Exportdirectory.entryline, List.append_assoc]
  rfl

theorem noname_eq (k : Nat) : dir.noname k = dir.nonameline k ++ [0x0a] := by
  simp only [Exportdirectory.noname, Exportdirectory.nonameline, List.append_assoc]
  rfl

theorem newline_not_mem_entryline (e : Exportentry) : (0x0a : UInt8) ∉ dir.entryline e := by
  have htab : (0x0a : UInt8) ∉ S "\t" := by decide
  have hmodule : (0x0a : UInt8) ∉ moduletext (dir.module e.addr) := by
    unfold moduletext
    split
    · simp only [List.mem_append, not_or]
      exact ⟨by decide, newline_not_mem_nametext _, by decide⟩
    · exact List.not_mem_nil
  simp only [Exportdirectory.entryline, List.mem_append, not_or]
  exact ⟨htab, not_mem_digits _ (by decide), htab, newline_not_mem_nametext _, hmodule⟩

theorem newline_not_mem_nonameline (k : Nat) : (0x0a : UInt8) ∉ dir.nonameline k := by
  simp only [Exportdirectory.nonameline, List.mem_append, not_or]
  exact ⟨by decide, not_mem_digits _ (by decide), by decide⟩

theorem lines_listing (es : List Exportentry) :
    lines (dir.listing es) =
      S "EXPORTS" :: (es.map dir.entryline ++ ((unseen es dir.naddrs.toNat).map dir.nonameline ++ [[]])) := by
  have hline : dir.line = fun e => dir.entryline e ++ [0x0a] := funext (line_eq dir)
  have hnoname : dir.noname = fun k => dir.nonameline k ++ [0x0a] := funext (noname_eq dir)
  have hend : lines ((unseen es dir.naddrs.toNat).flatMap fun k => dir.nonameline k ++ [0x0a]) =
      (unseen es dir.naddrs.toNat).map dir.nonameline ++ [[]] := by
    have h := lines_flatMap (fun k (_ : k ∈ unseen es dir.naddrs.toNat) => newline_not_mem_nonameline dir k) []
    rwa [List.append_nil] at h
  have hhead : S "EXPORTS\n" = S "EXPORTS" ++ [0x0a] := rfl
  rw [Exportdirectory.listing, hline, hnoname, hhead, List.append_assoc, List.singleton_append,
    lines_append _ (by decide), lines_flatMap (fun e _ => newline_not_mem_entryline dir e), hend]

theorem digits_notab (x : Nat) : ∀ c ∈ digits x, decide (c ≠ 0x09) = true := fun c hc =>
  decide_eq_true fun he => not_mem_digits x (show (0x09 : UInt8).toNat < 0x30 by decide) (he ▸ hc)

/-- Digits end at a tab. -/
theorem takeWhile_digits (x : Nat) (text : S8) : (digits x ++ (S "\t" ++ text)).takeWhile (· ≠ 0x09) = digits x := by
  rw [List.takeWhile_append_of_pos (digits_notab x)]
  show digits x ++ ((0x09 : UInt8) :: text).takeWhile _ = digits x
  rw [List.takeWhile_cons_of_neg (by decide), List.append_nil]

theorem digits_tab_inj {m n : Nat} {u v : S8} (h : digits m ++ (S "\t" ++ u) = digits n ++ (S "\t" ++ v)) :
    m = n ∧ u = v := by
  have hd : digits m = digits n := by rw [← takeWhile_digits m u, h, takeWhile_digits n v]
  rw [hd] at h
  refine ⟨by rw [← value_digits m, hd, value_digits n], ?_⟩
  exact List.append_cancel_left (List.append_cancel_left h)

theorem nonameline_inj {k j : Nat} (h : dir.nonameline k = dir.nonameline j) : k = j := by
  have := (digits_tab_inj (List.append_cancel_left h)).1
  omega

/-- No name is printed as the mark of an ordinal without one. -/
theorem nonameline_ne_entryline (k : Nat) (e : Exportentry) : dir.nonameline k ≠ dir.entryline e := by
  intro h
  have htail := (digits_tab_inj (List.append_cancel_left h)).2
  rcases nametext_cases (nullterm (image.mem e.name)) with hn | ⟨b, rest, hn, hb, -⟩
  · rw [hn] at htail
    have htail : (0x3c : UInt8) :: 0x4e :: _ = 0x3c :: 0x3e :: _ := htail
    cases htail
  · rw [hn] at htail
    have htail : (0x3c : UInt8) :: _ = b :: _ := htail
    exact hb (by rw [← (List.cons.inj htail).1]; rfl)

/-- The line of an ordinal without a name is listed exactly when no entry refers to it. -/
theorem nonameline_mem_iff {es : List Exportentry} {k : Nat} :
    dir.nonameline k ∈ lines (dir.listing es) ↔ k ∈ unseen es dir.naddrs.toNat := by
  rw [lines_listing, List.mem_cons, List.mem_append, List.mem_append]
  constructor
  · rintro (h | h | h | h)
    · cases h
    · obtain ⟨e, -, he⟩ := List.mem_map.mp h
      exact absurd he.symm (nonameline_ne_entryline dir k e)
    · obtain ⟨j, hj, he⟩ := List.mem_map.mp h
      rwa [nonameline_inj dir he] at hj
    · cases List.mem_singleton.mp h
  · intro h
    exact .inr (.inr (.inl (List.mem_map_of_mem h)))

/-- The ordinal is used: its entry in the address table is there and not zero. -/
def Exportdirectory.Used (k : Nat) : Prop := ∃ v, dir.address k = some v ∧ v ≠ 0

/-- Some entry of the name pointer table refers to the index. -/
def Exportdirectory.Named (k : Nat) : Prop :=
  ∃ i < dir.nnames.toNat, ∃ ordinal, u16at (image.mem dir.ordinals) (2 * i) = some ordinal ∧ ordinal.toNat = k

theorem refers_named {es : List Exportentry} (h : Listed dir es) {k : Nat} : refers es k = true ↔ dir.Named k := by
  have hordinal : ∀ {i : Nat} {e : Exportentry}, dir.entry i = some e →
      u16at (image.mem dir.ordinals) (2 * i) = some e.ordinal := by
    intro i e he
    obtain ⟨ordinal, hordinal, he⟩ := Option.bind_eq_some_iff.mp he
    obtain ⟨addr, -, he⟩ := Option.bind_eq_some_iff.mp he
    obtain ⟨name, -, he⟩ := Option.bind_eq_some_iff.mp he
    rw [hordinal, ← Option.some.inj he]
  rw [refers_iff]
  constructor
  · rintro ⟨e, he, hk⟩
    obtain ⟨i, hi, rfl⟩ := List.getElem_of_mem he
    exact ⟨i, h.entries.length ▸ hi, _, hordinal (h.entries.entry i hi), hk⟩
  · rintro ⟨i, hi, ordinal, ho, rfl⟩
    have hi : i < es.length := h.entries.length.symm ▸ hi
    refine ⟨es[i], List.getElem_mem hi, ?_⟩
    rw [hordinal (h.entries.entry i hi)] at ho
    rw [Option.some.inj ho]

theorem noname_used {es : List Exportentry} (h : Listed dir es) :
    (∀ k < dir.naddrs.toNat, dir.nonameline k ∈ lines (dir.listing es) → dir.Used k) ↔
      ∀ k < dir.naddrs.toNat, ¬ dir.Used k → dir.Named k := by
  refine forall_congr' fun k => forall_congr' fun hk => ?_
  rw [nonameline_mem_iff, mem_unseen, ← refers_named dir h]
  by_cases hr : refers es k = true
  · simp [hr]
  · rw [Bool.not_eq_true] at hr
    simp only [hr, hk, true_and, forall_const, Bool.false_eq_true, imp_false, Classical.not_not]

end

/-- For every image that is processed to its end with its exports asked for: the lines
    without a name are all of used ordinals exactly when some entry of the name pointer
    table refers to each ordinal whose entry in the address table is zero. -/
theorem noname_used_iff (oswrite : List S8 → S8 → Bool) (conf : Config) (scratch : Arena) (dll : S8) (out b : U8buf)
    (hexp : conf.exports = true) (h : (processpe oswrite conf scratch dll).run out = (.ok (), b)) :
    ∃ (image : Image dll) (exports rest : S8), b = prints8 oswrite out (exports ++ rest) ∧
      (∃ scratch', ∀ out, (processexports oswrite conf image.map scratch' image.pe image.type).run out =
        (.ok (), prints8 oswrite out exports)) ∧
      ∃ len, image.directory 100 = some len ∧ ((len = 0 ∧ exports = []) ∨ ∃ dir : Exportdirectory image, dir.len = len ∧
        ((∀ k < dir.naddrs.toNat, dir.nonameline k ∈ lines exports → dir.Used k) ↔
          ∀ k < dir.naddrs.toNat, ¬ dir.Used k → dir.Named k)) := by
  obtain ⟨text, hdone, hrun⟩ := (processpe_exports conf scratch dll).of_run h
  obtain ⟨image, exports, rest, ⟨len, hlen, hexported⟩, rfl, hscratch, -⟩ := hdone () rfl
  refine ⟨image, exports, rest, congrArg Prod.snd (h.symm.trans (hrun out)), hscratch, len, hlen, ?_⟩
  rcases hexported with ⟨-, -, dir, hdir, es, hlisted, rfl⟩ | ⟨hnot, rfl⟩
  · exact .inr ⟨dir, hdir, noname_used dir hlisted⟩
  · exact .inl ⟨Classical.byContradiction fun hne => hnot ⟨hexp, hne⟩, rfl⟩

theorem noname_used_iff_twoexports : ∃ (image : Image twoexports) (exports : S8) (len : UInt32),
    image.directory 100 = some len ∧ ((len = 0 ∧ exports = []) ∨ ∃ dir : Exportdirectory image, dir.len = len ∧
      ((∀ k < dir.naddrs.toNat, dir.nonameline k ∈ lines exports → dir.Used k) ↔
        ∀ k < dir.naddrs.toNat, ¬ dir.Used k → dir.Named k)) := by
  obtain ⟨image, exports, -, -, -, len, h⟩ :=
    noname_used_iff (fun _ _ => true) ⟨true, false⟩ page twoexports newu8buf _ rfl processpe_twoexports_page
  exact ⟨image, exports, len, h⟩

/-- One ordinal, which is not used, and no names. -/
def gapped : S8 :=
  image32 ([0, 0x10, 0, 0] ++ [44, 0, 0, 0] ++ List.replicate 8 0) 44
    (List.replicate 16 0 ++ [1, 0, 0, 0] ++ [1, 0, 0, 0] ++ [0, 0, 0, 0] ++ [40, 0x10, 0, 0] ++ List.replicate 8 0 ++
      [0, 0, 0, 0])

set_option maxRecDepth 4000 in
theorem gapped_mapped : loadsections 1 (some gapped) (some (gapped.drop 200)) =
    pure [⟨0x1000, 0x102c, some (fileslice gapped 240 284)⟩] := loadsections_one rfl

set_option maxRecDepth 4000 in
def gapped_image : Image gapped where
  peoff := 0x40
  nsections := 1
  hdrsize := 112
  type := .PE32
  map := [⟨0x1000, 0x102c, some (fileslice gapped 240 284)⟩]
  peoff_at := rfl
  peoff_le := by decide
  signature := rfl
  nsections_at := rfl
  hdrsize_at := rfl
  magic_at := rfl
  hdrsize_le := by decide
  mapped := gapped_mapped

theorem gapped_addresses : (1 : UInt32).toNat < 0x80000000 := by decide

def gapped_directory : Exportdirectory gapped_image where
  off := 0x1000
  len := 44
  ordbase := 1
  naddrs := 1
  nnames := 0
  addrs := 0x1028
  names := 0
  ordinals := 0
  off_at := rfl
  len_at := rfl
  ordbase_at := rfl
  naddrs_at := rfl
  nnames_at := rfl
  addrs_at := rfl
  names_at := rfl
  ordinals_at := rfl
  naddrs_lt := gapped_addresses
  nnames_lt := by decide

theorem gapped_listed : Listed gapped_directory [] where
  entries := .nil
  ordinal_lt := List.forall_mem_nil _
  named_fits := List.forall_mem_nil _
  unseen_fits := by decide

set_option maxRecDepth 4000 in
/-- The ordinal 1 is listed without a name, and its entry is zero. -/
theorem unused_ordinal_listed :
    (processpe (fun _ _ => true) ⟨true, false⟩ page gapped).run newu8buf =
      (.ok (), prints8 (fun _ _ => true) newu8buf (gapped_directory.listing [])) ∧
    S "\t1\t<NONAME>" ∈ lines (gapped_directory.listing []) ∧ gapped_directory.address 0 = some 0 := by
  have hscratch : alloc page (loadlen gapped_image.nsections) 24 8 = pure ⟨0x1018, 0x2000, by decide, by decide⟩ := rfl
  have hroom : ∃ a, alloc ⟨0x1018, 0x2000, by decide, by decide⟩ 1 1 1 = pure a :=
    ⟨⟨0x1019, 0x2000, by decide, by decide⟩, rfl⟩
  have hline : gapped_directory.nonameline 0 = S "\t1\t<NONAME>" := by
    rw [Exportdirectory.nonameline, digits_eq]
    rfl
  refine ⟨?_, ?_, rfl⟩
  · rw [processpe_image _ _ gapped_image, hscratch, pure_bind,
      processexports_exact gapped_directory (by decide) ⟨true, false⟩ rfl (by decide) (by decide) gapped_listed hroom,
      processimports_off ⟨true, false⟩ gapped_image (m := 0) (n := 0) rfl rfl (by decide)]
    rfl
  · rw [← hline, nonameline_mem_iff]
    decide

end GnuWindows.Peports
