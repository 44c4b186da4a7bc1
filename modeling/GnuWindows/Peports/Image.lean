/-
  GnuWindows.Peports.Image — an image that `processpe` gets to the directories of.

  `Image dll` holds what the headers of the file say, with the proof that they say it: the
  signature, the magic, and the table of regions. So an image is what the code accepts
  before it lists anything.

  Proved: `processpe` lists the tables of the image and does nothing else
  (`processpe_image`), and what it prints it prints of an image (`processpe_prints`).
-/
import GnuWindows.Peports.Regions

namespace GnuWindows.Peports

open GnuWindows.Lib.Hoare (Comp Says Silent Done)
open GnuWindows.PkgConfig (S8)

def Petype.magic : Petype → UInt16
  | .PE32 => 0x010b
  | .PE64 => 0x020b

/-- The number of sections that are loaded. -/
def loadlen (nsections : UInt16) : Nat := if 96 < nsections.toNat then 96 else nsections.toNat

structure Image (dll : S8) where
  peoff : UInt32
  nsections : UInt16
  hdrsize : UInt16
  type : Petype
  map : List Region
  peoff_at : u32at (some dll) 0x3c = some peoff
  peoff_le : peoff.toNat + 4 ≤ dll.length
  signature : (dll.drop peoff.toNat).take 4 = [0x50, 0x45, 0, 0]
  nsections_at : u16at (some (dll.drop peoff.toNat)) 6 = some nsections
  hdrsize_at : u16at (some (dll.drop peoff.toNat)) 20 = some hdrsize
  magic_at : u16at (some (dll.drop peoff.toNat)) 24 = some type.magic
  hdrsize_le : peoff.toNat + (24 + hdrsize.toNat) ≤ dll.length
  mapped : loadsections (loadlen nsections) (some dll) (some (dll.drop (peoff.toNat + (24 + hdrsize.toNat)))) = pure map

namespace Image

variable {dll : S8} (image : Image dll)

/-- The file from the signature on. -/
def pe : Slice := some (dll.drop image.peoff.toNat)

/-- The bytes mapped from an address on. -/
def mem (rva : UInt32) : Slice := bytesat image.map rva

theorem regions : ∃ hs, Regions dll hs image.map := by
  have hrun := congrArg (Comp.run · newu8buf) image.mapped
  obtain ⟨⟨hs, -, hmap⟩, -⟩ := (loadsections_silent _ dll _).of_run hrun
  exact ⟨hs, hmap⟩

theorem loadrva_eq (rva : UInt32) : loadrva image.map rva = pure (image.mem rva) := by
  obtain ⟨hs, hmap⟩ := image.regions
  exact Peports.loadrva_eq hmap rva

/-- What is mapped is no longer than the file. -/
theorem mem_len (rva : UInt32) : (image.mem rva).len ≤ dll.length := by
  obtain ⟨hs, hmap⟩ := image.regions
  unfold mem bytesat
  cases hf : image.map.find? (fun s => s.beg ≤ rva && rva < s.fin) with
  | none => exact Int.natCast_nonneg _
  | some s =>
    have hs := (found_contains hf).1
    rw [hmap.regions] at hs
    obtain ⟨h, -, rfl⟩ := List.mem_map.mp hs
    simp only [Option.bind_some, region, Option.map_some, Slice.len, Option.getD_some, fileslice, List.length_drop,
      List.length_take]
    omega

/-- The addresses that are mapped end below the 32-bit limit. -/
theorem mem_end {rva : UInt32} {bytes : S8} (h : image.mem rva = some bytes) :
    rva.toNat + bytes.length < 0x100000000 := by
  obtain ⟨hs, hmap⟩ := image.regions
  unfold mem bytesat at h
  cases hf : image.map.find? (fun s => s.beg ≤ rva && rva < s.fin) with
  | none =>
    rw [hf] at h
    cases h
  | some s =>
    obtain ⟨hs, hpred⟩ := found_contains hf
    have hsize := hmap.size s hs
    have hbeg := UInt32.le_iff_toNat_le.mp hpred.1
    have hsub : (rva - s.beg).toNat = rva.toNat - s.beg.toNat := UInt32.toNat_sub_of_le _ _ hpred.1
    have hfin := s.fin.toNat_lt
    rw [hf, Option.bind_some] at h
    cases hm : s.mem with
    | none =>
      rw [hm] at h
      cases h
    | some all =>
      rw [hm, Option.map_some] at h
      rw [← Option.some.inj h, List.length_drop]
      simp only [hm, Slice.len, Option.getD_some] at hsize
      have hlt := UInt32.lt_iff_toNat_lt.mp hpred.2
      omega

/-- The place of a directory entry in the headers. -/
def entryplace (off : Nat) : Nat := 24 + if image.type = .PE32 then off else off + 16

/-- A field of a directory entry. -/
def directory (off : Nat) : Option UInt32 := u32at image.pe (image.entryplace off)

theorem entryplace_eq (off : Nat) : Peports.directory image.type off = (image.entryplace off : Nat) := by
  unfold Peports.directory entryplace
  split <;> omega

end Image

variable {oswrite : List S8 → S8 → Bool}

theorem petype_magic (type : Petype) : petype type.magic = pure type := by cases type <;> rfl

theorem petype_silent (magic : UInt16) : Silent (petype magic) fun type => magic = type.magic := by
  refine .ite (fun h => .pure h) fun _ => .ite (fun h => .pure h) fun _ => .throw

theorem slice2_eq {bytes : S8} {beg : Nat} (h : beg ≤ bytes.length) :
    slice2 (some bytes) beg = pure (some (bytes.drop beg)) := by
  have hlen : Slice.len (some bytes) = bytes.length := rfl
  rw [slice2, slice3, hlen, if_neg (by omega), Option.map_some, Int.toNat_natCast, List.take_of_length_le]
  rw [List.length_drop]
  omega

theorem slice2_silent {bytes : S8} {beg : Int} {n : Nat} (h : beg = n) :
    Silent (slice2 (some bytes) beg) fun r => n ≤ bytes.length ∧ r = some (bytes.drop n) := by
  subst h
  by_cases hle : n ≤ bytes.length
  · rw [slice2_eq hle]
    exact .pure ⟨hle, rfl⟩
  · refine slice3_silent.mono fun r hr => absurd hr.1.2.1 ?_
    have hlen : Slice.len (some bytes) = bytes.length := rfl
    omega

/-- The tables of an image are listed, and nothing else is done. -/
theorem processpe_image (conf : Config) (scratch : Arena) {dll : S8} (image : Image dll) :
    processpe oswrite conf scratch dll = (do
      let scratch ← alloc scratch (loadlen image.nsections) 24 8
      processexports oswrite conf image.map scratch image.pe image.type
      processimports oswrite conf image.map image.pe image.type) := by
  have hpe : slice2 (some dll) image.peoff.toNat = pure image.pe := slice2_eq (by have := image.peoff_le; omega)
  have hhdr : slice3 image.pe 0 4 = pure (some [0x50, 0x45, 0, 0]) := by
    have hlen : image.pe.len = (dll.length - image.peoff.toNat : Nat) := by
      rw [Image.pe, Slice.len, Option.getD_some, List.length_drop]
    have := image.peoff_le
    rw [slice3, if_neg (by omega), Image.pe, Option.map_some, ← image.signature]
    rfl
  have hsections : slice2 image.pe (4 + 20 + image.hdrsize.toNat) =
      pure (some (dll.drop (image.peoff.toNat + (24 + image.hdrsize.toNat)))) := by
    have hle := image.hdrsize_le
    have hle : 24 + image.hdrsize.toNat ≤ (dll.drop image.peoff.toNat).length := by
      rw [List.length_drop]
      omega
    rw [← List.drop_drop]
    exact slice2_eq hle
  have hpeoff : readu32 (some dll) 0x3c = pure image.peoff := readu32_pure (n := 0x3c) rfl image.peoff_at
  have hnsections : readu16 image.pe (4 + 2) = pure image.nsections := readu16_pure (n := 6) rfl image.nsections_at
  have hhdrsize : readu16 image.pe (4 + 16) = pure image.hdrsize := readu16_pure (n := 20) rfl image.hdrsize_at
  have hmagic : readu16 image.pe (4 + 20) = pure image.type.magic := readu16_pure (n := 24) rfl image.magic_at
  have hcheck : check ((some [0x50, 0x45, 0, 0] : Slice).getD [] ≠ [0x50, 0x45, 0, 0]) "not a PE file" = pure () := rfl
  have hmap := image.mapped
  rw [loadlen] at hmap
  unfold processpe
  rw [hpeoff, pure_bind, hpe, pure_bind, hhdr, pure_bind, hcheck, pure_bind, hnsections, pure_bind, hhdrsize,
    pure_bind, hmagic, pure_bind, petype_magic, pure_bind]
  simp only [hsections, hmap, pure_bind, loadlen]

/-- Exports that are not asked for, or an empty directory, are not listed. -/
theorem processexports_off (conf : Config) (scratch : Arena) {dll : S8} (image : Image dll) {m n : UInt32}
    (hm : image.directory 96 = some m) (hn : image.directory 100 = some n) (hfits : m.toNat + n.toNat < 0x100000000)
    (h : ¬ (conf.exports = true ∧ n ≠ 0)) :
    processexports oswrite conf image.map scratch image.pe image.type = pure () := by
  have roff : readu32 image.pe (directory image.type 96) = pure m := readu32_pure (image.entryplace_eq 96) hm
  have rlen : readu32 image.pe (directory image.type 100) = pure n := readu32_pure (image.entryplace_eq 100) hn
  unfold processexports
  rw [roff, pure_bind, rlen, pure_bind, checkadd_pure hfits, pure_bind, image.loadrva_eq, pure_bind, if_neg h]

/-- Imports that are not asked for, or an empty directory, are not listed. -/
theorem processimports_off (conf : Config) {dll : S8} (image : Image dll) {m n : UInt32}
    (hm : image.directory 104 = some m) (hn : image.directory 108 = some n) (h : ¬ (conf.imports = true ∧ n ≠ 0)) :
    processimports oswrite conf image.map image.pe image.type = pure () := by
  have roff : readu32 image.pe (directory image.type 104) = pure m := readu32_pure (image.entryplace_eq 104) hm
  have rlen : readu32 image.pe (directory image.type 108) = pure n := readu32_pure (image.entryplace_eq 108) hn
  unfold processimports
  rw [roff, pure_bind, rlen, pure_bind, image.loadrva_eq, pure_bind, if_neg h]

/-- What is printed is printed of an image. -/
theorem processpe_prints (conf : Config) (scratch : Arena) (dll : S8) {Q : Image dll → S8 → Prop}
    (h : ∀ image : Image dll, ∀ scratch', Prints oswrite (do
      processexports oswrite conf image.map scratch' image.pe image.type
      processimports oswrite conf image.map image.pe image.type) (Done fun _ => Q image)) :
    Prints oswrite (processpe oswrite conf scratch dll) (Done fun _ text => ∃ image, Q image text) := by
  refine .silent_bind (readu32_silent (n := 0x3c) rfl) fun peoff hpeoff => ?_
  refine .silent_bind (slice2_silent rfl) fun pe hpe => .silent_bind slice3_silent fun pehdr hpehdr => ?_
  refine .silent_bind check_silent fun _ hsig => ?_
  refine .silent_bind (readu16_silent (n := 6) rfl) fun nsections hnsections => ?_
  refine .silent_bind (readu16_silent (n := 20) rfl) fun hdrsize hhdrsize => ?_
  refine .silent_bind (readu16_silent (n := 24) rfl) fun magic hmagic => ?_
  refine .silent_bind (petype_silent magic) fun type htype => .silent_bind alloc_silent fun scratch' _ => ?_
  obtain ⟨hle, rfl⟩ := hpe
  refine .silent_bind (slice2_silent (n := 24 + hdrsize.toNat) (by omega)) fun sections hsections => ?_
  obtain ⟨hsle, rfl⟩ := hsections
  refine .silent_bind (loadsections_silent _ _ _).self fun map hmap => ?_
  obtain ⟨⟨-, -, hlen⟩, rfl⟩ := hpehdr
  rw [List.length_drop] at hsle
  have hlen : (4 : Int) ≤ (dll.drop peoff.toNat).length := hlen
  rw [List.length_drop] at hlen
  let image : Image dll :=
    { peoff, nsections, hdrsize, type, map
      peoff_at := hpeoff
      peoff_le := by omega
      signature := Classical.not_not.mp hsig
      nsections_at := hnsections
      hdrsize_at := hhdrsize
      magic_at := htype ▸ hmagic
      hdrsize_le := by omega
      mapped := by
        rw [← List.drop_drop]
        exact funext hmap.2 }
  exact (h image scratch').mono fun r text hq u hr => ⟨image, hq u hr⟩

/-! ## Every computation prints -/

theorem loadrva_silent (map : List Region) (vaddr : UInt32) : Silent (loadrva map vaddr) fun _ => True := by
  unfold loadrva
  split
  · exact .pure trivial
  · exact slice3_silent.mono fun _ _ => trivial

theorem forwarder_silent (map : List Region) (x : Exports) (addr : UInt32) :
    Silent (forwarder map x addr) fun _ => True :=
  .ite (fun _ => (loadrva_silent map addr).map fun _ _ => trivial) fun _ => .pure trivial

theorem load_any (s : Slice) (off : Int) : Silent (load s off) fun _ => True := by
  unfold load
  split
  · exact .throw
  · refine .ite (fun _ => .throw) fun _ => ?_
    split
    · exact .throw
    · exact .pure trivial

theorem readu16_any (s : Slice) (off : Int) : Silent (readu16 s off) fun _ => True :=
  .ite (fun _ => .throw) fun _ => (load_any s _).bind fun _ _ => (load_any s _).bind fun _ _ => .pure trivial

theorem readu32_any (s : Slice) (off : Int) : Silent (readu32 s off) fun _ => True :=
  .ite (fun _ => .throw) fun _ => (load_any s _).bind fun _ _ => (load_any s _).bind fun _ _ =>
    (load_any s _).bind fun _ _ => (load_any s _).bind fun _ _ => .pure trivial

theorem lookupaddr_any (type : Petype) (table : Slice) (j : Int) : Silent (lookupaddr type table j) fun _ => True := by
  cases type with
  | PE32 => exact i32_silent.bind fun _ _ => readu32_any _ _
  | PE64 =>
    refine i32_silent.bind fun _ _ => i32_silent.bind fun _ _ => (readu32_any _ _).bind fun _ _ => ?_
    exact i32_silent.bind fun _ _ => i32_silent.bind fun _ _ => (readu32_any _ _).bind fun _ _ => .pure trivial

theorem forloop_any {τ : Type} {n : Int} {body : Int → τ → Pe τ} {start : τ}
    (h : ∀ i t, Prints oswrite (body i t) fun _ _ => True) : Prints oswrite (forloop n body start) fun _ _ => True := by
  refine Says.any_bind (Says.any_loop fun t => Says.ite (fun _ => ?_) fun _ => .pure trivial) fun _ => .pure trivial
  exact (h t.1 t.2).any_bind fun next => .any_silent_bind i32_silent fun _ => .pure trivial

theorem printu32_any (x : UInt32) : Prints oswrite (printu32 oswrite x) fun _ _ => True := by
  rw [printu32_eq]
  exact .any_put

theorem printname_any (s : Slice) : Prints oswrite (printname oswrite s) fun _ _ => True := by
  rw [printname_eq]
  exact .any_put

theorem printmodule_any (module : Slice) : Prints oswrite (printmodule oswrite module) fun _ _ => True :=
  .ite (fun _ => Says.any_put.any_bind fun _ => (printname_any module).any_bind fun _ => .any_put) fun _ =>
    .pure trivial

theorem printnamed_any (map : List Region) (x : Exports) (i : Int) (seen : S8) :
    Prints oswrite (printnamed oswrite map x i seen) fun _ _ => True := by
  refine .any_silent_bind i32_silent fun _ => .any_silent_bind (readu16_any _ _) fun ordinal => ?_
  refine .any_silent_bind check_silent fun _ => .any_silent_bind store_silent fun seen' => ?_
  refine .any_silent_bind i32_silent fun _ => .any_silent_bind (readu32_any _ _) fun addr => ?_
  refine .any_silent_bind (forwarder_silent map x addr) fun module => Says.any_put.any_bind fun _ => ?_
  refine .any_silent_bind checkadd_silent fun ordend => (printu32_any ordend).any_bind fun _ => ?_
  refine Says.any_put.any_bind fun _ => .any_silent_bind i32_silent fun _ => ?_
  refine .any_silent_bind (readu32_any _ _) fun off => ?_
  refine .any_silent_bind ((loadrva_silent map off).map (R := fun _ => True) fun _ _ => trivial) fun name => ?_
  refine (printname_any name).any_bind fun _ => (printmodule_any module).any_bind fun _ => ?_
  exact Says.any_put.any_bind fun _ => .pure trivial

theorem printunseen_any (ordbase : UInt32) (seen : S8) (i : Int) :
    Prints oswrite (printunseen oswrite ordbase seen i) fun _ _ => True := by
  refine .any_silent_bind (load_any _ _) fun b => Says.ite (fun _ => ?_) fun _ => .pure trivial
  refine Says.any_put.any_bind fun _ => .any_silent_bind checkadd_silent fun ordend => ?_
  exact (printu32_any ordend).any_bind fun _ => .any_put

theorem listexports_any (map : List Region) (scratch : Arena) (edata : Slice) (edataoff edataend : UInt32) :
    Prints oswrite (listexports oswrite map scratch edata edataoff edataend) fun _ _ => True := by
  have hcount : ∀ off, Silent (toi32 <$> readu32 edata off) fun _ => True :=
    fun off => (readu32_any edata off).map fun _ _ => trivial
  refine Says.any_put.any_bind fun _ => .any_silent_bind (readu32_any _ _) fun ordbase => ?_
  refine .any_silent_bind (hcount _) fun naddrs => .any_silent_bind (hcount _) fun nnames => ?_
  refine .any_silent_bind check_silent fun _ => .any_silent_bind alloc_silent fun _ => ?_
  refine .any_silent_bind (readu32_any _ _) fun _ => .any_silent_bind (loadrva_silent map _) fun addrs => ?_
  refine .any_silent_bind (readu32_any _ _) fun _ => .any_silent_bind (loadrva_silent map _) fun names => ?_
  refine .any_silent_bind (readu32_any _ _) fun _ => .any_silent_bind (loadrva_silent map _) fun ordinals => ?_
  refine (forloop_any fun i seen => printnamed_any map _ i seen).any_bind fun seen => ?_
  exact forloop_any fun i _ => printunseen_any ordbase seen i

theorem printentry_any (map : List Region) (addr : UInt32) :
    Prints oswrite (printentry oswrite map addr) fun _ _ => True := by
  refine Says.ite (fun _ => (printu32_any _).any_bind fun _ => .any_put) fun _ => ?_
  refine .any_silent_bind (loadrva_silent map addr) fun entry => .any_silent_bind (readu16_any _ _) fun hint => ?_
  refine (printu32_any _).any_bind fun _ => Says.any_put.any_bind fun _ => ?_
  exact .any_silent_bind (slice3_silent.map (R := fun _ => True) fun _ _ => trivial) fun name => printname_any name

theorem listtable_any (map : List Region) (type : Petype) (table : Slice) :
    Prints oswrite (listtable oswrite map type table) fun _ _ => True := by
  refine Says.any_loop fun j => .any_silent_bind (lookupaddr_any type table j) fun addr => ?_
  refine Says.ite (fun _ => .pure trivial) fun _ => Says.any_put.any_bind fun _ => ?_
  refine (printentry_any map addr).any_bind fun _ => Says.any_put.any_bind fun _ => ?_
  exact .any_silent_bind i32_silent fun _ => .pure trivial

theorem listimports_any (map : List Region) (type : Petype) (idata : Slice) (idataoff : UInt32) :
    Prints oswrite (listimports oswrite map type idata idataoff) fun _ _ => True := by
  have hname : ∀ off, Silent (nullterm <$> loadrva map off) fun _ => True :=
    fun off => (loadrva_silent map off).map fun _ _ => trivial
  refine Says.any_loop fun t => .any_silent_bind i32_silent fun off => Says.ite (fun _ => .pure trivial) fun _ => ?_
  refine .any_silent_bind i32_silent fun _ => .any_silent_bind i32_silent fun _ => ?_
  refine .any_silent_bind (readu32_any _ _) fun tableoff => ?_
  refine .any_silent_bind i32_silent fun _ => .any_silent_bind i32_silent fun _ => ?_
  refine .any_silent_bind (readu32_any _ _) fun nameoff => Says.ite (fun _ => .pure trivial) fun _ => ?_
  refine .any_silent_bind (hname nameoff) fun name => Says.ite (fun _ => .pure trivial) fun _ => ?_
  refine (printname_any name).any_bind fun _ => Says.any_put.any_bind fun _ => ?_
  refine .any_silent_bind (loadrva_silent map tableoff) fun table => Says.ite (fun _ => .pure trivial) fun _ => ?_
  exact (listtable_any map type table).any_bind fun _ => .any_silent_bind i32_silent fun _ => .pure trivial

theorem processexports_any (conf : Config) (map : List Region) (scratch : Arena) (pe : Slice) (type : Petype) :
    Prints oswrite (processexports oswrite conf map scratch pe type) fun _ _ => True := by
  refine .any_silent_bind (readu32_any _ _) fun off => .any_silent_bind (readu32_any _ _) fun len => ?_
  refine .any_silent_bind checkadd_silent fun fin => .any_silent_bind (loadrva_silent map off) fun edata => ?_
  exact .ite (fun _ => listexports_any map scratch edata off fin) fun _ => .pure trivial

theorem processimports_any (conf : Config) (map : List Region) (pe : Slice) (type : Petype) :
    Prints oswrite (processimports oswrite conf map pe type) fun _ _ => True := by
  refine .any_silent_bind (readu32_any _ _) fun off => .any_silent_bind (readu32_any _ _) fun len => ?_
  refine .any_silent_bind (loadrva_silent map off) fun idata => Says.ite (fun _ => ?_) fun _ => .pure trivial
  exact (listimports_any map type idata off).any_bind fun _ => .pure trivial

/-- What an image is printed as does not depend on what was printed before it. -/
theorem processpe_any (conf : Config) (scratch : Arena) (dll : S8) :
    Prints oswrite (processpe oswrite conf scratch dll) fun _ _ => True := by
  refine .any_silent_bind (readu32_any _ _) fun peoff => .any_silent_bind slice3_silent fun pe => ?_
  refine .any_silent_bind slice3_silent fun pehdr => .any_silent_bind check_silent fun _ => ?_
  refine .any_silent_bind (readu16_any _ _) fun nsections => .any_silent_bind (readu16_any _ _) fun hdrsize => ?_
  refine .any_silent_bind (readu16_any _ _) fun magic => .any_silent_bind (petype_silent magic) fun type => ?_
  refine .any_silent_bind alloc_silent fun scratch' => .any_silent_bind slice3_silent fun sections => ?_
  refine .any_silent_bind (loadsections_silent _ dll sections) fun map => ?_
  exact (processexports_any conf map scratch' pe type).any_bind fun _ => processimports_any conf map pe type

end GnuWindows.Peports
