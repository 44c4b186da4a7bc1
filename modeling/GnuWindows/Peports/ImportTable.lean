/-
  GnuWindows.Peports.ImportTable — what `processpe` lists of the import directory.

  A descriptor names a module and up to two tables of what is imported of it, the lookup
  table and the address table. The walk over the directory reads the first one only, and
  takes a descriptor without it for the end.

  `Importdirectory` is a directory as the format has it: descriptors, each with a table that
  ends, then one that is all zeros, and nothing of the tables in the directory.

  Proved:
  - `listtable_exact`: a lookup table is listed entry by entry, in both widths.
  - `listimports_exact`: the modules before the first descriptor without a lookup table are
    listed. The other ways to stop do not happen before that.
  - `imports_listed_iff`: all modules are listed exactly when each has a lookup table.
-/
import GnuWindows.Peports.ExportTable
import Mathlib.Data.List.TakeWhile

namespace GnuWindows.Peports

open GnuWindows.Lib.Hoare (Comp)
open GnuWindows.PkgConfig (S8 S)

variable {oswrite : List S8 → S8 → Bool}

/-! ## The directory as the format has it -/

/-- An entry of a lookup table: an ordinal, or the address of a hint and a name. -/
inductive Importentry where
  | ordinal (n : UInt16)
  | name (rva : UInt32)

/-- The entry `j` of a table; the top bit of its width tells an ordinal. -/
def Importentry.At (type : Petype) (table : Slice) (j : Nat) : Importentry → Prop
  | .ordinal n =>
    match type with
    | .PE32 => u32at table (4 * j) = some (0x80000000 ||| n.toUInt32)
    | .PE64 => u32at table (8 * j) = some n.toUInt32 ∧ u32at table (8 * j + 4) = some 0x80000000
  | .name rva =>
    match type with
    | .PE32 => u32at table (4 * j) = some rva
    | .PE64 => u32at table (8 * j) = some rva ∧ u32at table (8 * j + 4) = some 0

/-- The end of a table. -/
def Endsat (type : Petype) (table : Slice) (j : Nat) : Prop :=
  match type with
  | .PE32 => u32at table (4 * j) = some 0
  | .PE64 => u32at table (8 * j) = some 0 ∧ u32at table (8 * j + 4) = some 0

def Petype.width : Petype → Nat
  | .PE32 => 4
  | .PE64 => 8

structure Descriptor where
  lookup : UInt32
  name : UInt32
  address : UInt32

/-- The lookup table, or the address table when there is none. -/
def Descriptor.thunk (d : Descriptor) : UInt32 := if d.lookup ≠ 0 then d.lookup else d.address

section

variable {dll : S8} (image : Image dll)

/-- The address of a name has its top bit clear, and a hint to read. -/
def Importentry.Valid : Importentry → Prop
  | .ordinal _ => True
  | .name rva => rva ≠ 0 ∧ rva < 0x80000000 ∧ ∃ hint, u16at (image.mem rva) 0 = some hint

def Image.descriptor (off : UInt32) (i : Nat) : Option Descriptor := do
  let lookup ← u32at (image.mem off) (20 * i)
  let name ← u32at (image.mem off) (20 * i + 12)
  let address ← u32at (image.mem off) (20 * i + 16)
  pure ⟨lookup, name, address⟩

/-- A module and what is imported of it. -/
structure Importmodule where
  descriptor : Descriptor
  entries : List Importentry
  name_ne : descriptor.name ≠ 0
  name_mapped : image.mem descriptor.name ≠ none
  thunk_ne : descriptor.thunk ≠ 0
  entry_at : ∀ j (h : j < entries.length), entries[j].At image.type (image.mem descriptor.thunk) j
  ends : Endsat image.type (image.mem descriptor.thunk) entries.length
  valid : ∀ e ∈ entries, e.Valid image

/-- The bytes of the table, its end included. -/
def Importmodule.size {image : Image dll} (m : Importmodule image) : Nat := image.type.width * (m.entries.length + 1)

structure Importdirectory where
  off : UInt32
  len : UInt32
  modules : List (Importmodule image)
  off_at : image.directory 104 = some off
  len_at : image.directory 108 = some len
  len_ne : len ≠ 0
  descriptor_at : ∀ i (h : i < modules.length), image.descriptor off i = some modules[i].descriptor
  /-- The last descriptor is all zeros. -/
  ends : ∀ j < 20, u8at (image.mem off) (20 * modules.length + j) = some 0
  apart : ∀ m ∈ modules, m.descriptor.thunk.toNat + m.size ≤ off.toNat ∨
    off.toNat + 20 * (modules.length + 1) ≤ m.descriptor.thunk.toNat

end

/-! ## The listing -/

section

variable {dll : S8} {image : Image dll}

/-- An entry as it is printed: its ordinal, or its hint and its name. -/
def Importentry.text (image : Image dll) : Importentry → S8
  | .ordinal n => digits n.toNat ++ S "\t<NONAME>"
  | .name rva => digits ((u16at (image.mem rva) 0).getD 0).toNat ++
      (S "\t" ++ nametext (nullterm ((image.mem rva).map (·.drop 2))))

def Importentry.line (image : Image dll) (e : Importentry) : S8 := S "\t" ++ (e.text image ++ S "\n")

/-- The name of a module, then its entries. -/
def Importmodule.text (m : Importmodule image) : S8 :=
  nametext (nullterm (image.mem m.descriptor.name)) ++ (S "\n" ++ m.entries.flatMap (·.line image))

def Importdirectory.listing (dir : Importdirectory image) : S8 := dir.modules.flatMap (·.text)

end

/-! ## Lookup tables -/

/-- What is read of an entry, whatever its width. -/
def Importentry.addr : Importentry → UInt32
  | .ordinal n => 0x80000000 ||| n.toUInt32
  | .name rva => rva

theorem toNat_ordinal (n : UInt16) : (0x80000000 ||| n.toUInt32).toNat = 0x80000000 + n.toNat := by
  have hn := n.toNat_lt
  have h := Nat.two_pow_add_eq_or_of_lt (i := 31) (b := n.toNat) (by omega) 1
  rw [UInt32.toNat_or, UInt16.toNat_toUInt32]
  show 2 ^ 31 ||| n.toNat = 2 ^ 31 + n.toNat
  rw [Nat.mul_one] at h
  exact h.symm

theorem ordinal_parts (n : UInt16) :
    (0x80000000 ||| n.toUInt32) >>> 31 ≠ 0 ∧ ((0x80000000 ||| n.toUInt32) &&& 0x7fffffff).toNat = n.toNat := by
  have hn := n.toNat_lt
  have hnat := toNat_ordinal n
  constructor
  · intro h
    have h := congrArg UInt32.toNat h
    rw [UInt32.toNat_shiftRight, hnat] at h
    have h : (0x80000000 + n.toNat) >>> 31 = 0 := h
    rw [Nat.shiftRight_eq_div_pow] at h
    omega
  · rw [UInt32.toNat_and, hnat]
    show (0x80000000 + n.toNat) &&& (2 ^ 31 - 1) = n.toNat
    rw [Nat.and_two_pow_sub_one_eq_mod]
    omega

theorem name_shift {rva : UInt32} (h : rva < 0x80000000) : rva >>> 31 = 0 := by
  have hlt : rva.toNat < 0x80000000 := UInt32.lt_iff_toNat_lt.mp h
  apply UInt32.toNat_inj.mp
  rw [UInt32.toNat_shiftRight]
  show rva.toNat >>> 31 = 0
  rw [Nat.shiftRight_eq_div_pow]
  omega

theorem lookupaddr_at {type : Petype} {table : Slice} (hsmall : table.len ≤ 0x1c000000) {j : Nat} {e : Importentry}
    (h : e.At type table j) : lookupaddr type table j = pure e.addr := by
  cases type with
  | PE32 =>
    have hread : u32at table (4 * j) = some e.addr := by cases e <;> exact h
    have hle := u32at_le hread
    unfold lookupaddr
    rw [i32_eq (by omega), pure_bind]
    exact readu32_pure (by omega) hread
  | PE64 =>
    obtain ⟨low, high, hlow, hhigh, hor⟩ : ∃ low high, u32at table (8 * j) = some low ∧
      u32at table (8 * j + 4) = some high ∧
        high ||| low = e.addr := by
      cases e with
      | ordinal n => exact ⟨_, _, h.1, h.2, rfl⟩
      | name rva => exact ⟨_, _, h.1, h.2, UInt32.zero_or⟩
    have hle := u32at_le hhigh
    unfold lookupaddr
    simp only
    rw [i32_eq (by omega), pure_bind, i32_eq (by omega), pure_bind, readu32_pure (n := 8 * j + 4) (by omega) hhigh,
      pure_bind, pure_bind, i32_eq (by omega), pure_bind, readu32_pure (n := 8 * j) (by omega) hlow, pure_bind, hor]

theorem mapped_of_u32at {s : Slice} {off : Nat} {v : UInt32} (h : u32at s off = some v) : ∃ bytes, s = some bytes := by
  cases s with
  | none => cases h
  | some bytes => exact ⟨bytes, rfl⟩

/-- A table that ends is mapped. -/
theorem endsat_mapped {type : Petype} {table : Slice} {j : Nat} (h : Endsat type table j) :
    ∃ bytes, table = some bytes := by
  cases type with
  | PE32 => exact mapped_of_u32at h
  | PE64 => exact mapped_of_u32at h.1

/-- An entry lies in its table. -/
theorem at_le {type : Petype} {table : Slice} {j : Nat} {e : Importentry} (h : e.At type table j) :
    (4 * j : Int) ≤ table.len := by
  cases type with
  | PE32 =>
    have hread : u32at table (4 * j) = some e.addr := by cases e <;> exact h
    have := u32at_le hread
    omega
  | PE64 =>
    obtain ⟨low, hlow⟩ : ∃ low, u32at table (8 * j) = some low := by cases e <;> exact ⟨_, h.1⟩
    have := u32at_le hlow
    omega

theorem lookupaddr_end {type : Petype} {table : Slice} (hsmall : table.len ≤ 0x1c000000) {j : Nat}
    (h : Endsat type table j) : lookupaddr type table j = pure 0 := by
  have hat : (Importentry.name 0).At type table j := by cases type <;> exact h
  exact lookupaddr_at hsmall hat

section

variable {dll : S8} (image : Image dll)

theorem addr_ne {e : Importentry} (h : e.Valid image) : e.addr ≠ 0 := by
  cases e with
  | ordinal n =>
    intro he
    have hnat := toNat_ordinal n
    rw [show (0x80000000 ||| n.toUInt32) = 0 from he] at hnat
    have : (0 : UInt32).toNat = 0 := rfl
    omega
  | name rva => exact h.1

theorem printentry_exact {e : Importentry} (h : e.Valid image) :
    printentry oswrite image.map e.addr = print oswrite (e.text image) := by
  cases e with
  | ordinal n =>
    obtain ⟨htop, hlow⟩ := ordinal_parts n
    show (if (0x80000000 ||| n.toUInt32) >>> 31 ≠ 0 then _ else _) = _
    rw [if_pos htop, printu32_eq]
    show (do print oswrite (digits ((0x80000000 ||| n.toUInt32) &&& 0x7fffffff).toNat); _) = _
    rw [hlow, print_print]
    rfl
  | name rva =>
    obtain ⟨-, hlt, hint, hhint⟩ := h
    obtain ⟨bytes, hbytes⟩ : ∃ bytes, image.mem rva = some bytes := by
      cases hm : image.mem rva with
      | none => rw [hm] at hhint; cases hhint
      | some bytes => exact ⟨bytes, rfl⟩
    have hle := u16at_le hhint
    rw [hbytes] at hle
    have hlen : Slice.len (some bytes) = bytes.length := rfl
    have hslice : slice2 (some bytes) 2 = pure (some (bytes.drop 2)) := slice2_eq (show 2 ≤ bytes.length by omega)
    have hread : readu16 (image.mem rva) 0 = pure hint := readu16_pure (n := 0) rfl hhint
    show printentry oswrite image.map rva = _
    unfold printentry
    rw [if_neg (by rw [name_shift hlt]; decide), image.loadrva_eq, pure_bind, hread, pure_bind, printu32_eq, hbytes,
      hslice, map_pure, UInt16.toNat_toUInt32]
    simp only [pure_bind, printname_eq]
    rw [print_print, print_print, Importentry.text, hhint, hbytes]
    rfl

/-- A table is listed entry by entry. -/
theorem listtable_exact {o : List S8 → S8 → Bool} {table : Slice} (hsmall : table.len ≤ 0x1c000000)
    {entries : List Importentry} (hat : ∀ j (h : j < entries.length), entries[j].At image.type table j)
    (hend : Endsat image.type table entries.length)
    (hvalid : ∀ e ∈ entries, e.Valid image) :
    ∃ j, listtable o image.map image.type table = (do
      print o (entries.flatMap (·.line image))
      pure j) := by
  have hloop := loop_exact (o := o) (h := lookupturn_nearer o image.map image.type table)
    (u := fun j : Nat => (j : Int))
    (w := fun e : Importentry => e.line image) (l := entries) (v := []) (z := (entries.length : Int)) ?_ ?_
  · rw [List.append_nil] at hloop
    exact ⟨_, hloop⟩
  · intro j hj
    have hv := hvalid _ (List.getElem_mem hj)
    have hle := at_le (hat j hj)
    have hnext : ((j : Int) + 1) = ((j + 1 : Nat) : Int) := rfl
    rw [lookupturn, lookupaddr_at hsmall (hat j hj), pure_bind, if_neg (addr_ne image hv), printentry_exact image hv,
      i32_eq (by omega), hnext]
    simp only [pure_bind, print_bind_print]
    rfl
  · rw [lookupturn, lookupaddr_end hsmall hend, pure_bind, if_pos rfl, print_nil]
    rfl

end

/-! ## The walk over the directory -/

section

variable {dll : S8} {image : Image dll}

/-- The earliest lookup table of the modules walked so far. -/
def earliest (ms : List (Importmodule image)) : UInt32 :=
  ms.foldl (fun t m => if t < m.descriptor.lookup then t else m.descriptor.lookup) 0xffffffff

theorem earliest_snoc (ms : List (Importmodule image)) (m : Importmodule image) : earliest (ms ++ [m]) =
    if earliest ms < m.descriptor.lookup then earliest ms else m.descriptor.lookup := by
  rw [earliest, List.foldl_append]
  rfl

theorem earliest_cases (ms : List (Importmodule image)) :
    earliest ms = 0xffffffff ∨ ∃ m ∈ ms, earliest ms = m.descriptor.lookup := by
  induction ms using List.reverseRecOn with
  | nil => exact .inl rfl
  | append_singleton ms m ih =>
    rw [earliest_snoc]
    split
    · rcases ih with h | ⟨m', hm', h⟩
      · exact .inl h
      · exact .inr ⟨m', List.mem_append_left _ hm', h⟩
    · exact .inr ⟨m, List.mem_append_right _ (List.mem_singleton_self m), rfl⟩

theorem thunk_lookup {d : Descriptor} (h : d.lookup ≠ 0) : d.thunk = d.lookup := if_pos h

variable (dir : Importdirectory image)

theorem ends_u32 {j : Nat} (hj : j + 4 ≤ 20) : u32at (image.mem dir.off) (20 * dir.modules.length + j) = some 0 := by
  unfold u32at
  rw [Nat.add_assoc, Nat.add_assoc, Nat.add_assoc, dir.ends (j + 3) (by omega), dir.ends (j + 2) (by omega),
    dir.ends (j + 1) (by omega), dir.ends j (by omega)]
  rfl

/-- The directory is mapped, its last descriptor included. -/
theorem directory_end : dir.off.toNat + 20 * (dir.modules.length + 1) < 0x100000000 ∧
    (20 * (dir.modules.length + 1) : Nat) ≤ (image.mem dir.off).len := by
  have hle := u8at_le (dir.ends 19 (by decide))
  cases hm : image.mem dir.off with
  | none =>
    have h := dir.ends 0 (by decide)
    rw [hm] at h
    cases h
  | some bytes =>
    have hend := image.mem_end hm
    have hlen : Slice.len (some bytes) = bytes.length := rfl
    rw [hm] at hle
    omega

/-- The walk has not come to a lookup table. -/
theorem earliest_ne {ms : List (Importmodule image)} (hms : ∀ m ∈ ms, m ∈ dir.modules ∧ m.descriptor.lookup ≠ 0)
    {i : Nat} (hi : i ≤ dir.modules.length) : dir.off + UInt32.ofInt ((20 * i : Nat) : Int) ≠ earliest ms := by
  obtain ⟨hend, -⟩ := directory_end dir
  have hsum : (dir.off + UInt32.ofInt ((20 * i : Nat) : Int)).toNat = dir.off.toNat + 20 * i := by
    rw [UInt32.toNat_add, toNat_ofInt (by omega), Nat.mod_eq_of_lt (by omega)]
  intro h
  have h := congrArg UInt32.toNat h
  rw [hsum] at h
  rcases earliest_cases ms with he | ⟨m, hm, he⟩
  · rw [he] at h
    have hmax : (0xffffffff : UInt32).toNat = 0xffffffff := rfl
    omega
  · obtain ⟨hmem, hne⟩ := hms m hm
    have hapart := dir.apart m hmem
    have hpos : 0 < m.size := Nat.mul_pos (by cases image.type <;> decide) (Nat.succ_pos _)
    rw [thunk_lookup hne] at hapart
    rw [he] at h
    omega

/-- The fields a turn reads are those of the descriptor. -/
theorem descriptor_fields {i : Nat} (hi : i < dir.modules.length) :
    u32at (image.mem dir.off) (20 * i) = some dir.modules[i].descriptor.lookup ∧
      u32at (image.mem dir.off) (20 * i + 12) = some dir.modules[i].descriptor.name := by
  obtain ⟨lookup, hlookup, hd⟩ := Option.bind_eq_some_iff.mp (dir.descriptor_at i hi)
  obtain ⟨name, hname, hd⟩ := Option.bind_eq_some_iff.mp hd
  obtain ⟨address, -, hd⟩ := Option.bind_eq_some_iff.mp hd
  have hd : (⟨lookup, name, address⟩ : Descriptor) = dir.modules[i].descriptor := Option.some.inj hd
  rw [← hd]
  exact ⟨hlookup, hname⟩

variable (hdll : dll.length ≤ 0x1c000000)
include hdll

/-- A turn reads two fields of its descriptor. -/
theorem directoryturn_reads {ms : List (Importmodule image)} (hms : ∀ m ∈ ms, m ∈ dir.modules ∧ m.descriptor.lookup ≠ 0)
    {i : Nat} (hi : i ≤ dir.modules.length) {tableoff nameoff : UInt32}
    (htable : u32at (image.mem dir.off) (20 * i) = some tableoff)
    (hname : u32at (image.mem dir.off) (20 * i + 12) = some nameoff) :
    i32 ((i : Int) * 20) = pure ((20 * i : Nat) : Int) ∧
      dir.off + UInt32.ofInt ((20 * i : Nat) : Int) ≠ earliest ms ∧
      i32 (((20 * i : Nat) : Int) + 0) = pure ((20 * i : Nat) : Int) ∧
      i32 (((20 * i : Nat) : Int) + 12) = pure ((20 * i + 12 : Nat) : Int) ∧
      readu32 (image.mem dir.off) ((20 * i : Nat) : Int) = pure tableoff ∧
      readu32 (image.mem dir.off) ((20 * i + 12 : Nat) : Int) = pure nameoff := by
  have hle := u32at_le hname
  have hlen := image.mem_len dir.off
  have hoff : (i : Int) * 20 = ((20 * i : Nat) : Int) := by omega
  have h12 : ((20 * i : Nat) : Int) + 12 = ((20 * i + 12 : Nat) : Int) := rfl
  refine ⟨?_, earliest_ne dir hms hi, ?_, ?_, readu32_pure rfl htable, readu32_pure rfl hname⟩
  · rw [hoff, i32_eq (by omega)]
  · rw [Int.add_zero, i32_eq (by omega)]
  · rw [h12, i32_eq (by omega)]

/-- A module with a lookup table is listed, and the walk goes on. -/
theorem directoryturn_module {ms : List (Importmodule image)}
    (hms : ∀ m ∈ ms, m ∈ dir.modules ∧ m.descriptor.lookup ≠ 0)
    {i : Nat} (hi : i < dir.modules.length) (hne : dir.modules[i].descriptor.lookup ≠ 0) :
    directoryturn oswrite image.map image.type (image.mem dir.off) dir.off ((i : Int), earliest ms) = (do
      print oswrite dir.modules[i].text
      pure (.yield (((i + 1 : Nat) : Int), earliest (ms ++ [dir.modules[i]])))) := by
  obtain ⟨hlookup, hname⟩ := descriptor_fields dir hi
  obtain ⟨hi32, hheuristic, h0, h12, htable, hnameoff⟩ :=
    directoryturn_reads dir hdll hms (Nat.le_of_lt hi) hlookup hname
  have hle := u32at_le hname
  have hlen := image.mem_len dir.off
  clear hlookup hname
  generalize dir.modules[i] = m at hne htable hnameoff ⊢
  have hends := m.ends
  rw [thunk_lookup hne] at hends
  obtain ⟨table, htab⟩ := endsat_mapped hends
  obtain ⟨nm, hmapped⟩ := Option.ne_none_iff_exists'.mp m.name_mapped
  have hsmall : (image.mem m.descriptor.thunk).len ≤ 0x1c000000 := by
    have := image.mem_len m.descriptor.thunk
    omega
  obtain ⟨j, hlist⟩ := listtable_exact (o := oswrite) image hsmall m.entry_at m.ends m.valid
  rw [thunk_lookup hne, htab] at hlist
  have hnext : ((i : Int) + 1) = ((i + 1 : Nat) : Int) := rfl
  unfold directoryturn
  simp only [hi32, pure_bind, if_neg hheuristic, h0, h12, htable, hnameoff, hne, m.name_ne, or_self, if_false,
    image.loadrva_eq, map_pure, hmapped, nullterm, Option.map_some, Option.isNone_some, htab, hlist, bind_assoc,
    printname_eq, print_bind_print, hnext, Bool.false_eq_true]
  rw [i32_eq (by omega), pure_bind, earliest_snoc, Importmodule.text, hmapped, List.append_assoc]
  rfl

/-- A descriptor without a lookup table ends the walk. -/
theorem directoryturn_stops {ms : List (Importmodule image)} (hms : ∀ m ∈ ms, m ∈ dir.modules ∧ m.descriptor.lookup ≠ 0)
    {i : Nat} (hi : i ≤ dir.modules.length) {name : UInt32} (hlookup : u32at (image.mem dir.off) (20 * i) = some 0)
    (hname : u32at (image.mem dir.off) (20 * i + 12) = some name) :
    directoryturn oswrite image.map image.type (image.mem dir.off) dir.off ((i : Int), earliest ms) = (do
      print oswrite []
      pure (.done ((i : Int), earliest ms))) := by
  obtain ⟨hi32, hheuristic, h0, h12, htable, hnameoff⟩ := directoryturn_reads dir hdll hms hi hlookup hname
  unfold directoryturn
  simp only [hi32, pure_bind, if_neg hheuristic, h0, h12, htable, hnameoff, true_or, if_true, print_nil]

/-- The modules before the first one without a lookup table are listed. -/
theorem listimports_exact {o : List S8 → S8 → Bool} {ms rest : List (Importmodule image)}
    (hall : dir.modules = ms ++ rest)
    (hms : ∀ m ∈ ms, m.descriptor.lookup ≠ 0) (hrest : ∀ m ∈ rest.head?, m.descriptor.lookup = 0) :
    ∃ t, listimports o image.map image.type (image.mem dir.off) dir.off = (do
      print o (ms.flatMap (·.text))
      pure t) := by
  have hmem : ∀ i, ∀ m ∈ ms.take i, m ∈ dir.modules ∧ m.descriptor.lookup ≠ 0 := by
    intro i m hm
    have hm := List.mem_of_mem_take hm
    exact ⟨by rw [hall]; exact List.mem_append_left _ hm, hms m hm⟩
  have hloop := loop_exact (o := o)
    (h := directoryturn_nearer o image.map image.type (image.mem dir.off) dir.off)
    (u := fun i : Nat => ((i : Int), earliest (ms.take i))) (w := fun m : Importmodule image => m.text) (l := ms)
    (v := [])
    (z := ((ms.length : Int), earliest (ms.take ms.length))) ?_ ?_
  · rw [List.append_nil] at hloop
    exact ⟨_, hloop⟩
  · intro i hi
    have hin : i < dir.modules.length := by
      rw [hall, List.length_append]
      omega
    have hget : dir.modules[i] = ms[i] := by simp only [hall, List.getElem_append_left hi]
    have hne : dir.modules[i].descriptor.lookup ≠ 0 := by
      rw [hget]
      exact hms _ (List.getElem_mem hi)
    rw [directoryturn_module dir hdll (hmem i) hin hne, hget, List.take_append_getElem hi]
  · cases rest with
    | nil =>
      rw [List.append_nil] at hall
      have hend := ends_u32 dir (j := 0) (by decide)
      have hname := ends_u32 dir (j := 12) (by decide)
      rw [hall] at hend hname
      exact directoryturn_stops dir hdll (hmem ms.length) (by rw [hall]) hend hname
    | cons m rest =>
      have hin : ms.length < dir.modules.length := by
        rw [hall, List.length_append, List.length_cons]
        omega
      have hget : dir.modules[ms.length] = m := by simp [hall]
      obtain ⟨hlookup, hname⟩ := descriptor_fields dir hin
      rw [hget, hrest m rfl] at hlookup
      exact directoryturn_stops dir hdll (hmem ms.length) (Nat.le_of_lt hin) hlookup hname

theorem processimports_exact (conf : Config) (himp : conf.imports = true) {ms rest : List (Importmodule image)}
    (hall : dir.modules = ms ++ rest) (hms : ∀ m ∈ ms, m.descriptor.lookup ≠ 0)
    (hrest : ∀ m ∈ rest.head?, m.descriptor.lookup = 0) :
    processimports oswrite conf image.map image.pe image.type = print oswrite (ms.flatMap (·.text)) := by
  have roff : readu32 image.pe (directory image.type 104) = pure dir.off :=
    readu32_pure (image.entryplace_eq 104) dir.off_at
  have rlen : readu32 image.pe (directory image.type 108) = pure dir.len :=
    readu32_pure (image.entryplace_eq 108) dir.len_at
  obtain ⟨t, hlist⟩ := listimports_exact (o := oswrite) dir hdll hall hms hrest
  unfold processimports
  rw [roff, pure_bind, rlen, pure_bind, image.loadrva_eq, pure_bind, if_pos ⟨himp, dir.len_ne⟩, hlist]
  rfl

/-- For every image of the size that is loaded at most, with a well-formed import directory
    that is asked for, and exports that are listed as `exports` (as nothing when they are
    not asked for): all modules are listed, each with exactly its entries, exactly when
    every descriptor has a lookup table. -/
theorem imports_listed_iff (conf : Config) (himp : conf.imports = true) (scratch a : Arena) (exports : S8)
    (hscratch : alloc scratch (loadlen image.nsections) 24 8 = pure a)
    (hexports : ∀ oswrite, processexports oswrite conf image.map a image.pe image.type = print oswrite exports) :
    (∀ oswrite out, (processpe oswrite conf scratch dll).run out =
        (.ok (), prints8 oswrite out (exports ++ dir.modules.flatMap (·.text)))) ↔
      ∀ m ∈ dir.modules, m.descriptor.lookup ≠ 0 := by
  have hrun : ∀ oswrite {ms rest : List (Importmodule image)}, dir.modules = ms ++ rest →
      (∀ m ∈ ms, m.descriptor.lookup ≠ 0) → (∀ m ∈ rest.head?, m.descriptor.lookup = 0) →
      processpe oswrite conf scratch dll = print oswrite (exports ++ ms.flatMap (·.text)) := by
    intro oswrite ms rest hall hms hrest
    rw [processpe_image conf scratch image, hscratch, pure_bind, hexports,
      processimports_exact dir hdll conf himp hall hms hrest, print_print]
  constructor
  · intro h
    by_contra hnot
    -- the walk stops at the first descriptor without a lookup table
    let p : Importmodule image → Bool := fun m => m.descriptor.lookup ≠ 0
    have hall : dir.modules = dir.modules.takeWhile p ++ dir.modules.dropWhile p :=
      (List.takeWhile_append_dropWhile ..).symm
    have hms : ∀ m ∈ dir.modules.takeWhile p, m.descriptor.lookup ≠ 0 := by
      intro m hm
      have hp : p m = true := List.mem_takeWhile_imp hm
      exact of_decide_eq_true hp
    have hhead := List.head?_dropWhile_not p dir.modules
    cases hrest : dir.modules.dropWhile p with
    | nil =>
      rw [hrest, List.append_nil] at hall
      rw [← hall] at hms
      exact hnot hms
    | cons m rest =>
      rw [hrest] at hall hhead
      have hzero : m.descriptor.lookup = 0 := by simpa [p] using hhead
      have hrun := congrArg (Comp.run · newu8buf)
        (hrun (fun _ _ => true) hall hms fun x hx => by rw [← Option.some.inj hx]; exact hzero)
      have hfull := h (fun _ _ => true) newu8buf
      rw [show (processpe (fun _ _ => true) conf scratch dll).run newu8buf = _ from hrun] at hfull
      have htext := List.append_cancel_left (prints8_inj (congrArg Prod.snd hfull))
      have hsplit : dir.modules.flatMap (·.text) =
          (dir.modules.takeWhile p).flatMap (·.text) ++ (m :: rest).flatMap (·.text) := by
        rw [← List.flatMap_append, ← hall]
      have htext := congrArg List.length (htext.trans hsplit)
      rw [List.length_append, List.flatMap_cons, List.length_append, Importmodule.text, List.length_append,
        List.length_append] at htext
      have hnewline : (S "\n").length = 1 := rfl
      omega
  · intro hms oswrite out
    rw [hrun oswrite (List.append_nil dir.modules).symm hms nofun]
    rfl

end

/-! ## A module without a lookup table -/

/-- Two modules, the second one with an address table only. -/
def twomodules : S8 :=
  image32 (List.replicate 8 0 ++ [0, 0x10, 0, 0] ++ [60, 0, 0, 0]) 84
    ([0x3c, 0x10, 0, 0] ++ List.replicate 8 0 ++ [0x4c, 0x10, 0, 0] ++ [0, 0, 0, 0] ++
      List.replicate 12 0 ++ [0x4e, 0x10, 0, 0] ++ [0x44, 0x10, 0, 0] ++ List.replicate 20 0 ++
      [7, 0, 0, 0x80] ++ [0, 0, 0, 0] ++ [0x50, 0x10, 0, 0] ++ [0, 0, 0, 0] ++ [0x61, 0] ++ [0x62, 0] ++
      [3, 0, 0x66, 0])

set_option maxRecDepth 4000 in
theorem twomodules_mapped : loadsections 1 (some twomodules) (some (twomodules.drop 200)) =
    pure [⟨0x1000, 0x1054, some (fileslice twomodules 240 324)⟩] := loadsections_one rfl

set_option maxRecDepth 4000 in
def twomodules_image : Image twomodules where
  peoff := 0x40
  nsections := 1
  hdrsize := 112
  type := .PE32
  map := [⟨0x1000, 0x1054, some (fileslice twomodules 240 324)⟩]
  peoff_at := rfl
  peoff_le := by decide
  signature := rfl
  nsections_at := rfl
  hdrsize_at := rfl
  magic_at := rfl
  hdrsize_le := by decide
  mapped := twomodules_mapped

def withlookup : Importmodule twomodules_image where
  descriptor := ⟨0x103c, 0x104c, 0⟩
  entries := [.ordinal 7]
  name_ne := by decide
  name_mapped := nofun
  thunk_ne := by decide
  entry_at := fun j hj => by obtain rfl := Nat.lt_one_iff.mp hj; rfl
  ends := rfl
  valid := List.forall_mem_singleton.mpr trivial

def addressonly : Importmodule twomodules_image where
  descriptor := ⟨0, 0x104e, 0x1044⟩
  entries := [.name 0x1050]
  name_ne := by decide
  name_mapped := nofun
  thunk_ne := by decide
  entry_at := fun j hj => by obtain rfl := Nat.lt_one_iff.mp hj; rfl
  ends := rfl
  valid := List.forall_mem_singleton.mpr ⟨by decide, by decide, 3, rfl⟩

def twomodules_directory : Importdirectory twomodules_image where
  off := 0x1000
  len := 60
  modules := [withlookup, addressonly]
  off_at := rfl
  len_at := rfl
  len_ne := by decide
  descriptor_at := fun i hi => by
    rcases Nat.lt_succ_iff_lt_or_eq.mp hi with hi | rfl
    · obtain rfl := Nat.lt_one_iff.mp hi
      rfl
    · rfl
  ends := by decide
  apart := List.forall_mem_cons.mpr ⟨by decide, List.forall_mem_singleton.mpr (by decide)⟩

set_option maxRecDepth 4000 in
theorem imports_listed_iff_twomodules :
    (∀ oswrite out, (processpe oswrite ⟨false, true⟩ page twomodules).run out =
        (.ok (), prints8 oswrite out ([] ++ twomodules_directory.modules.flatMap (·.text)))) ↔
      ∀ m ∈ twomodules_directory.modules, m.descriptor.lookup ≠ 0 :=
  imports_listed_iff twomodules_directory (by decide) ⟨false, true⟩ rfl page ⟨0x1018, 0x2000, by decide, by decide⟩
    [] rfl
    fun oswrite => (processexports_off ⟨false, true⟩ _ twomodules_image (m := 0) (n := 0) rfl rfl (by decide)
      (by decide)).trans
      print_nil.symm

set_option maxRecDepth 4000 in
/-- The second module is dropped with its entry. -/
theorem module_dropped :
    (processpe (fun _ _ => true) ⟨false, true⟩ page twomodules).run newu8buf =
      (.ok (), prints8 (fun _ _ => true) newu8buf (S "a\n\t7\t<NONAME>\n")) ∧
    twomodules_directory.modules.flatMap (·.text) = S "a\n\t7\t<NONAME>\nb\n\t3\tf\n" := by
  have hscratch : alloc page (loadlen twomodules_image.nsections) 24 8 = pure ⟨0x1018, 0x2000, by decide, by decide⟩ :=
    rfl
  have hseven : digits 7 = S "7" := (digits_eq 7).trans rfl
  have hthree : digits 3 = S "3" := (digits_eq 3).trans rfl
  have hfirst : withlookup.text = S "a\n\t7\t<NONAME>\n" := by
    show S "a" ++ (S "\n" ++ ((S "\t" ++ ((digits 7 ++ S "\t<NONAME>") ++ S "\n")) ++ [])) = _
    rw [hseven]
    rfl
  have hsecond : addressonly.text = S "b\n\t3\tf\n" := by
    show S "b" ++ (S "\n" ++ ((S "\t" ++ ((digits 3 ++ (S "\t" ++ S "f")) ++ S "\n")) ++ [])) = _
    rw [hthree]
    rfl
  have hlisted : [withlookup].flatMap (·.text) = S "a\n\t7\t<NONAME>\n" := by
    rw [List.flatMap_singleton, hfirst]
  constructor
  · rw [processpe_image _ _ twomodules_image, hscratch, pure_bind,
      processexports_off ⟨false, true⟩ _ twomodules_image (m := 0) (n := 0) rfl rfl (by decide) (by decide), pure_bind,
      processimports_exact twomodules_directory (by decide) ⟨false, true⟩ rfl
        (show twomodules_directory.modules = [withlookup] ++ [addressonly] from rfl)
        (List.forall_mem_singleton.mpr (by decide)) (fun m hm => by rw [← Option.some.inj hm]; rfl), hlisted]
    rfl
  · show [withlookup, addressonly].flatMap (·.text) = _
    rw [List.flatMap_cons, List.flatMap_singleton, hfirst, hsecond]
    rfl

end GnuWindows.Peports
