/-
  GnuWindows.Peports.Readback — the export listing can be read back.

  A name is escaped byte by byte, so that neither bracket is printed of it, and the empty
  name is the two brackets. A space is printed as it is, but behind a name only the one in
  front of a forwarder is followed by `<`. That is where `cutmodule` cuts.

  Proved:
  - `readline_exportline`: `readline` reads the ordinal, the name and the forwarder back from
    every line. It takes no line of an ordinal without a name (`readline_unnamedline`).
  - `readline_listing`: a listing is read back to its entries.
  - `exportline_determines`: what is printed of an entry is its line, and lines of different
    exports are different.
-/
import GnuWindows.Peports.Unused

namespace GnuWindows.Peports

open GnuWindows.Lib.Hoare (Done)
open GnuWindows.PkgConfig (S8 S value)

/-! ## The lines -/

/-- The line of a named export, without its end. -/
def exportline (ordinal : Nat) (name module : Slice) : S8 :=
  S "\t" ++ (digits ordinal ++ (S "\t" ++ (nametext name ++ moduletext module)))

/-- The line of an export without a name, without its end. -/
def unnamedline (ordinal : Nat) : S8 := S "\t" ++ (digits ordinal ++ S "\t<NONAME>")

section

variable {dll : S8} {image : Image dll} (dir : Exportdirectory image)

theorem entryline_eq (e : Exportentry) : dir.entryline e =
    exportline (e.ordinal.toNat + dir.ordbase.toNat) (nullterm (image.mem e.name)) (dir.module e.addr) := rfl

theorem nonameline_eq (k : Nat) : dir.nonameline k = unnamedline (k + dir.ordbase.toNat) := rfl

variable (oswrite : List S8 → S8 → Bool)

/-- What `printnamed` prints is the line of the entry it reads. -/
theorem printnamed_exportline (i : Nat) (seen : S8) :
    Prints oswrite (printnamed oswrite image.map dir.exports i seen) (Done fun seen' text =>
      ∃ e, dir.entry i = some e ∧ e.ordinal.toNat < dir.naddrs.toNat ∧ seen' = seen.set e.ordinal.toNat 1 ∧
        text = exportline (e.ordinal.toNat + dir.ordbase.toNat) (nullterm (image.mem e.name)) (dir.module e.addr) ++
          S "\n") := by
  refine (printnamed_prints dir i seen).mono fun r text h seen' hr => ?_
  obtain ⟨e, he, hlt, -, hseen, rfl⟩ := h seen' hr
  exact ⟨e, he, hlt, hseen, by rw [line_eq, entryline_eq]; rfl⟩

/-- What `printunseen` prints is nothing, or the line of an export without a name. -/
theorem printunseen_unnamedline (es : List Exportentry) (i : Nat) (hi : i < dir.naddrs.toNat) :
    Prints oswrite (printunseen oswrite dir.ordbase (marks es dir.naddrs.toNat) i) (Done fun _ text =>
      (refers es i = true ∧ text = []) ∨
      (refers es i = false ∧ text = unnamedline (i + dir.ordbase.toNat) ++ S "\n")) := by
  refine (printunseen_prints dir es hi).mono fun r text h u hr => ?_
  rcases h u hr with ⟨hseen, rfl⟩ | ⟨hseen, -, rfl⟩
  · exact .inl ⟨hseen, rfl⟩
  · exact .inr ⟨hseen, by rw [noname_eq, nonameline_eq]; rfl⟩

end

/-! ## Reading a name -/

/-- The value of a hex digit. -/
def hexvalue (d : UInt8) : UInt8 := if d < 0x3a then d - 0x30 else d - 0x61 + 10

def unescaped : S8 → S8
  | 0x5c :: 0x78 :: high :: low :: rest => (hexvalue high * 16 + hexvalue low) :: unescaped rest
  | c :: rest => c :: unescaped rest
  | [] => []

theorem hexvalue_hexdigit (c : UInt8) : hexvalue (hexdigit (c >>> 4)) * 16 + hexvalue (hexdigit (c &&& 15)) = c := by
  have hall : ∀ n : Fin 256, hexvalue (hexdigit (UInt8.ofFin n >>> 4)) * 16 +
      hexvalue (hexdigit (UInt8.ofFin n &&& 15)) = UInt8.ofFin n := by decide +kernel
  exact hall c.toFin

theorem unescaped_cons {c : UInt8} (h : c ≠ 0x5c) (rest : S8) : unescaped (c :: rest) = c :: unescaped rest := by
  rw [unescaped.eq_2]
  rintro high low tail rfl
  exact absurd rfl h

theorem unescaped_escaped (c : UInt8) (rest : S8) : unescaped (escaped c ++ rest) = c :: unescaped rest := by
  unfold escaped
  split
  · show (hexvalue (hexdigit (c >>> 4)) * 16 + hexvalue (hexdigit (c &&& 15))) :: unescaped rest = c :: unescaped rest
    rw [hexvalue_hexdigit]
  · next h =>
    refine unescaped_cons (fun he => h ?_) rest
    rw [he]
    rfl

theorem unescaped_flatMap (s : S8) : unescaped (s.flatMap escaped) = s := by
  induction s with
  | nil => rfl
  | cons c s ih => rw [List.flatMap_cons, unescaped_escaped, ih]

/-- A name as it was printed; the brackets alone are the empty one. -/
def readname : S8 → Option S8
  | [0x3c, 0x3e] => some []
  | 0x3c :: _ => none
  | text => some (unescaped text)

theorem readname_nametext (s : Slice) : readname (nametext s) = some (s.getD []) := by
  rcases nametext_printable s with ⟨hs, h⟩ | ⟨-, hflat, hne, hall⟩
  · rw [h, hs]
    rfl
  · obtain ⟨b, rest, h⟩ := List.exists_cons_of_ne_nil hne
    have hb : b ≠ 0x3c := fun he => (hall b (h ▸ List.mem_cons_self)).2.2.1 (by rw [he]; rfl)
    have hread : readname (b :: rest) = some (unescaped (b :: rest)) := by
      rw [readname.eq_3]
      · rintro he
        exact hb (List.cons.inj he).1
      · rintro tail he
        exact hb (List.cons.inj he).1
    rw [h, hread, ← h, hflat, unescaped_flatMap]

/-- Different names are printed differently. -/
theorem nametext_inj {s t : Slice} (h : nametext s = nametext t) : s.getD [] = t.getD [] := by
  have hread := readname_nametext s
  rw [h, readname_nametext t] at hread
  exact (Option.some.inj hread).symm

/-! ## Reading a line -/

/-- The text in front of the first space that is followed by `<`, and what follows both. -/
def cutmodule : S8 → S8 × Option S8
  | 0x20 :: 0x3c :: rest => ([], some rest)
  | c :: rest => (c :: (cutmodule rest).1, (cutmodule rest).2)
  | [] => ([], none)

theorem cutmodule_cons {c : UInt8} {rest : S8} (h : rest.head? ≠ some 0x3c) :
    cutmodule (c :: rest) = (c :: (cutmodule rest).1, (cutmodule rest).2) := by
  rw [cutmodule.eq_2]
  rintro tail - rfl
  exact absurd rfl h

/-- No `<` follows another byte of a name. -/
theorem bracket_not_mem_tail (s : Slice) : (0x3c : UInt8) ∉ (nametext s).tail := by
  rcases nametext_printable s with ⟨-, h⟩ | ⟨-, -, -, hall⟩
  · rw [h]
    decide
  · exact fun hmem => (hall _ (List.mem_of_mem_tail hmem)).2.2.1 rfl

theorem cutmodule_none {front : S8} (h : (0x3c : UInt8) ∉ front.tail) : cutmodule front = (front, none) := by
  induction front with
  | nil => rfl
  | cons c front ih =>
    have hhead : front.head? ≠ some 0x3c := fun he => h (List.mem_of_mem_head? he)
    rw [cutmodule_cons hhead, ih fun hmem => h (List.mem_of_mem_tail hmem)]

theorem cutmodule_some {front : S8} (h : (0x3c : UInt8) ∉ front.tail) (rest : S8) :
    cutmodule (front ++ (S " <" ++ rest)) = (front, some rest) := by
  induction front with
  | nil => rfl
  | cons c front ih =>
    have hhead : (front ++ (S " <" ++ rest)).head? ≠ some 0x3c := by
      cases front with
      | nil => exact fun he => absurd (Option.some.inj he) (by decide)
      | cons d front => exact fun he => h (Option.some.inj he ▸ List.mem_cons_self)
    rw [List.cons_append, cutmodule_cons hhead, ih fun hmem => h (List.mem_of_mem_tail hmem)]

/-- A forwarder's name stands in front of the last byte. -/
def readmodule : Option S8 → Option Slice
  | none => some none
  | some text => (readname text.dropLast).map some

/-- The ordinal, the name and the forwarder of a line. -/
def readline : S8 → Option (Nat × S8 × Slice)
  | 0x09 :: line =>
    let text := cutmodule ((line.dropWhile (· ≠ 0x09)).drop 1)
    (readname text.1).bind fun name => (readmodule text.2).map fun module =>
      (value (line.takeWhile (· ≠ 0x09)), name, module)
  | _ => none

theorem readline_digits (n : Nat) (text : S8) :
    readline (S "\t" ++ (digits n ++ (S "\t" ++ text))) = (readname (cutmodule text).1).bind fun name =>
      (readmodule (cutmodule text).2).map fun module => (n, name, module) := by
  have hdrop : (digits n ++ (S "\t" ++ text)).dropWhile (· ≠ 0x09) = S "\t" ++ text := by
    rw [List.dropWhile_append_of_pos (digits_notab n)]
    exact List.dropWhile_cons_of_neg (by decide)
  show readline (0x09 :: (digits n ++ (S "\t" ++ text))) = _
  unfold readline
  simp only [hdrop, takeWhile_digits, value_digits]
  rfl

/-- Every line is read back. -/
theorem readline_exportline (n : Nat) (name module : Slice) :
    readline (exportline n name module) = some (n, name.getD [], module) := by
  unfold exportline
  rw [readline_digits]
  have htail := bracket_not_mem_tail name
  cases module with
  | none =>
    have hcut : cutmodule (nametext name ++ moduletext none) = (nametext name, none) := by
      show cutmodule (nametext name ++ []) = _
      rw [List.append_nil, cutmodule_none htail]
    rw [hcut, readname_nametext]
    rfl
  | some module =>
    have hcut : cutmodule (nametext name ++ moduletext (some module)) =
      (nametext name, some (nametext (some module) ++ S ">")) := cutmodule_some htail _
    have hlast : (nametext (some module) ++ S ">").dropLast = nametext (some module) := List.dropLast_concat
    rw [hcut, readname_nametext, readmodule, hlast, readname_nametext]
    rfl

/-- The name holds what a forwarder is printed as, and ends in a space. -/
example : readline (exportline 7 (some (S "a <b> ")) (some [])) = some (7, S "a <b> ", some []) := by decide +kernel

/-- No line without a name is read. -/
theorem readline_unnamedline (n : Nat) : readline (unnamedline n) = none := by
  have hcut : S "\t<NONAME>" = S "\t" ++ S "<NONAME>" := rfl
  unfold unnamedline
  rw [hcut, readline_digits]
  rfl

/-- A listing is read back: its entries in order, and nothing of its other lines. -/
theorem readline_listing {dll : S8} {image : Image dll} (dir : Exportdirectory image) (es : List Exportentry) :
    (lines (dir.listing es)).filterMap readline = es.map fun e =>
      (e.ordinal.toNat + dir.ordbase.toNat, (nullterm (image.mem e.name)).getD [], dir.module e.addr) := by
  have hhead : readline (S "EXPORTS") = none := rfl
  have hentries : (es.map dir.entryline).filterMap readline = es.map fun e =>
      (e.ordinal.toNat + dir.ordbase.toNat, (nullterm (image.mem e.name)).getD [], dir.module e.addr) := by
    rw [List.filterMap_map, ← List.filterMap_eq_map]
    refine congrArg (List.filterMap · es) (funext fun e => ?_)
    show readline (dir.entryline e) = _
    rw [entryline_eq, readline_exportline]
    rfl
  have hothers : ((unseen es dir.naddrs.toNat).map dir.nonameline).filterMap readline = [] := by
    rw [List.filterMap_eq_nil_iff]
    intro line hline
    obtain ⟨k, -, rfl⟩ := List.mem_map.mp hline
    rw [nonameline_eq]
    exact readline_unnamedline _
  rw [lines_listing, List.filterMap_cons_none hhead, List.filterMap_append, List.filterMap_append, hentries, hothers]
  exact List.append_nil _

/-! ## Different exports are printed differently -/

/-- A null name is printed as the empty one. -/
theorem nametext_congr {s t : Slice} (h : s.getD [] = t.getD []) : nametext s = nametext t := by
  unfold nametext
  rw [h]

theorem exportline_inj_iff {m n : Nat} {s t f g : Slice} :
    exportline m s f = exportline n t g ↔ m = n ∧ s.getD [] = t.getD [] ∧ f = g := by
  constructor
  · intro h
    have hread := readline_exportline m s f
    rw [h, readline_exportline n t g] at hread
    simp only [Option.some.injEq, Prod.mk.injEq] at hread
    exact ⟨hread.1.symm, hread.2.1.symm, hread.2.2.symm⟩
  · rintro ⟨rfl, hname, rfl⟩
    rw [exportline, exportline, nametext_congr hname]

theorem exportline_ne_unnamedline (m n : Nat) (s f : Slice) : exportline m s f ≠ unnamedline n := by
  intro h
  have hread := readline_exportline m s f
  rw [h, readline_unnamedline] at hread
  cases hread

theorem bracket_mem_nametext_iff {s : Slice} : 0x3c ∈ nametext s ∨ 0x3e ∈ nametext s ↔ s.getD [] = [] := by
  rcases nametext_printable s with ⟨hs, h⟩ | ⟨hs, -, -, hall⟩
  · rw [h]
    exact iff_of_true (by decide) hs
  · exact iff_of_false (fun hmem => hmem.elim (fun hb => (hall _ hb).2.2.1 rfl) fun hb => (hall _ hb).2.2.2 rfl) hs

theorem nametext_range (s : Slice) : ∀ b ∈ nametext s, 0x20 ≤ b.toNat ∧ b.toNat ≤ 0x7f := by
  rcases nametext_printable s with ⟨-, h⟩ | ⟨-, -, -, hall⟩
  · have htwo : S "<>" = [0x3c, 0x3e] := rfl
    rw [h, htwo]
    exact List.forall_mem_cons.mpr ⟨by decide, List.forall_mem_singleton.mpr (by decide)⟩
  · exact fun b hb => ⟨(hall b hb).1, (hall b hb).2.1⟩

/-- The line of a named export is that of the entry it is printed for, and determines its
    ordinal, its name and its forwarder; it is no line of an export without a name. So a
    listing is read back to its entries. A name is printed in the bytes 0x20 to 0x7f, with a
    bracket only when it is empty, and two different names are printed differently. -/
theorem exportline_determines (oswrite : List S8 → S8 → Bool) :
    (∀ name, printname oswrite name = print oswrite (nametext name)) ∧
    (∀ (dll : S8) (image : Image dll) (dir : Exportdirectory image) (i : Nat) (seen : S8),
      Prints oswrite (printnamed oswrite image.map dir.exports i seen) (Done fun seen' text =>
        ∃ e, dir.entry i = some e ∧ e.ordinal.toNat < dir.naddrs.toNat ∧ seen' = seen.set e.ordinal.toNat 1 ∧
          text = exportline (e.ordinal.toNat + dir.ordbase.toNat) (nullterm (image.mem e.name)) (dir.module e.addr) ++
            S "\n")) ∧
    (∀ (dll : S8) (image : Image dll) (dir : Exportdirectory image) (es : List Exportentry), ∀ i < dir.naddrs.toNat,
      Prints oswrite (printunseen oswrite dir.ordbase (marks es dir.naddrs.toNat) i) (Done fun _ text =>
        (refers es i = true ∧ text = []) ∨
        (refers es i = false ∧ text = unnamedline (i + dir.ordbase.toNat) ++ S "\n"))) ∧
    (∀ (conf : Config) (dll : S8) (image : Image dll) (scratch : Arena),
      Prints oswrite (processexports oswrite conf image.map scratch image.pe image.type)
        (Done fun _ => Exported conf image)) ∧
    (∀ (dll : S8) (image : Image dll) (dir : Exportdirectory image) (es : List Exportentry),
      (lines (dir.listing es)).filterMap readline = es.map fun e =>
        (e.ordinal.toNat + dir.ordbase.toNat, (nullterm (image.mem e.name)).getD [], dir.module e.addr)) ∧
    (∀ (m n : UInt32) (s t f g : Slice), exportline m.toNat s f = exportline n.toNat t g ↔
      m = n ∧ s.getD [] = t.getD [] ∧ f = g) ∧
    (∀ (m n : UInt32) (s f : Slice), exportline m.toNat s f ≠ unnamedline n.toNat) ∧
    ∀ s : Slice, (∀ b ∈ nametext s, 0x20 ≤ b.toNat ∧ b.toNat ≤ 0x7f) ∧
      (0x3c ∈ nametext s ∨ 0x3e ∈ nametext s ↔ s.getD [] = []) ∧
      ∀ t : Slice, nametext s = nametext t ↔ s.getD [] = t.getD [] := by
  refine ⟨printname_eq, fun _ _ dir => printnamed_exportline dir oswrite,
    fun _ _ dir => printunseen_unnamedline dir oswrite, fun conf _ => processexports_prints conf,
    fun _ _ dir => readline_listing dir, fun m n s t f g => ?_,
    fun m n => exportline_ne_unnamedline m.toNat n.toNat,
    fun s => ⟨nametext_range s, bracket_mem_nametext_iff, fun t => ⟨nametext_inj, nametext_congr⟩⟩⟩
  rw [exportline_inj_iff, UInt32.toNat_inj]

end GnuWindows.Peports
