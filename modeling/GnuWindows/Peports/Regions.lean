/-
  GnuWindows.Peports.Regions — the table of mapped regions that the section loop leaves.

  A section larger than its data is checked against the last region kept and then dropped;
  one smaller is cut off. So the table is the headers that were kept, in order, and the
  check made when one was appended is all that orders them.

  Proved:
  - `loadsections_silent`: the loop keeps `Regions`, for every header it reads.
  - `loadrva_pure`: over such a table `loadrva` throws nothing, and gives the bytes of the
    one region that contains an address, or the null string.
  - `loadsections_regions`: both, for a loop that ended without a throw.
-/
import GnuWindows.Peports.Prints
import Mathlib.Data.List.Chain

namespace GnuWindows.Peports

open GnuWindows.Lib.Hoare (Silent)
open GnuWindows.PkgConfig (S8)

/-- The header of a section, if it lies in the table. -/
def headerat (sections : Slice) (i : Nat) : Option Sectionheader := do
  let vsize ← u32at sections (40 * i + 8)
  let vaddr ← u32at sections (40 * i + 12)
  let rsize ← u32at sections (40 * i + 16)
  let raddr ← u32at sections (40 * i + 20)
  pure ⟨vsize, vaddr, rsize, raddr⟩

/-- The bytes of a file between two places. -/
def fileslice (dll : S8) (beg fin : Nat) : S8 := (dll.drop beg).take (fin - beg)

theorem length_fileslice {dll : S8} {beg fin : Nat} (h : fin ≤ dll.length) :
    (fileslice dll beg fin).length = fin - beg := by
  rw [fileslice, List.length_take, List.length_drop]
  omega

theorem take_fileslice (dll : S8) (beg : Nat) {m n : Nat} (h : m ≤ n) :
    (fileslice dll beg (beg + n)).take m = fileslice dll beg (beg + m) := by
  rw [fileslice, fileslice, List.take_take, Nat.add_sub_cancel_left, Nat.add_sub_cancel_left, Nat.min_eq_left h]

/-- The end of a slice of the file. -/
theorem drop_fileslice (dll : S8) (beg fin off : Nat) :
    (fileslice dll beg fin).drop off = fileslice dll (beg + off) fin := by
  rw [fileslice, fileslice, List.drop_take, List.drop_drop, Nat.sub_add_eq]

/-- The section is not larger than its data. -/
def Sectionheader.kept (h : Sectionheader) : Bool := h.vsize ≤ h.rsize

/-- A section as it is mapped. -/
def region (dll : S8) (h : Sectionheader) : Region :=
  ⟨h.vaddr, h.vaddr + h.vsize, some (fileslice dll h.raddr.toNat (h.raddr.toNat + h.vsize.toNat))⟩

def Region.Contains (s : Region) (rva : UInt32) : Prop := s.beg ≤ rva ∧ rva < s.fin

/-- One region begins after another has ended. -/
def Region.Before (s t : Region) : Prop := s.beg < t.beg ∧ s.fin ≤ t.beg

instance : Trans Region.Before Region.Before Region.Before where
  trans := fun h h' => ⟨UInt32.lt_trans h.1 h'.1, UInt32.le_trans h.2 (UInt32.le_of_lt h'.1)⟩

/-- The table after the headers `hs`. -/
structure Regions (dll : S8) (hs : List Sectionheader) (map : List Region) : Prop where
  regions : map = (hs.filter (·.kept)).map (region dll)
  /-- What is mapped lies in the file. -/
  data : ∀ h ∈ hs, h.kept = true → h.raddr.toNat + h.vsize.toNat ≤ dll.length
  size : ∀ s ∈ map, (s.fin.toNat : Int) - s.beg.toNat = s.mem.len
  order : map.Pairwise Region.Before

/-! ## The section loop -/

/-- A field of the section header `i`. -/
theorem readfield_silent {sections : Slice} {i n : Nat} {k : Int} (hk : k = n) {f : UInt32 → Pe Sectionheader}
    {R : Sectionheader → Prop} (h : ∀ v, u32at sections (40 * i + n) = some v → Silent (f v) R) :
    Silent (do f (← readu32 sections (← i32 ((← i32 (40 * i)) + k)))) R := by
  refine i32_silent.bind fun off hoff => i32_silent.bind fun off' hoff' => ?_
  exact (readu32_silent (by omega)).bind h

theorem readsection_silent (sections : Slice) (i : Nat) :
    Silent (readsection sections i) fun h => headerat sections i = some h := by
  refine readfield_silent (n := 8) rfl fun vsize h₁ => readfield_silent (n := 12) rfl fun vaddr h₂ => ?_
  refine readfield_silent (n := 16) rfl fun rsize h₃ => readfield_silent (n := 20) rfl fun raddr h₄ => .pure ?_
  simp only [headerat, h₁, h₂, h₃, h₄]
  rfl

section

variable {dll : S8} {hs : List Sectionheader} {map : List Region} {h : Sectionheader}

/-- A header that is dropped leaves the table as it is. -/
theorem Regions.dropped (hmap : Regions dll hs map) (hkept : h.kept = false) : Regions dll (hs ++ [h]) map := by
  refine ⟨?_, ?_, hmap.size, hmap.order⟩
  · rw [List.filter_append, List.filter_cons_of_neg (by simp [hkept]), List.filter_nil, List.append_nil]
    exact hmap.regions
  · intro g hg
    rcases List.mem_append.mp hg with hg | hg
    · exact hmap.data g hg
    · rw [List.mem_singleton.mp hg, hkept]
      intro hfalse
      cases hfalse

/-- A header that is kept is appended, if it is in the file and after the last region. -/
theorem Regions.snoc (hmap : Regions dll hs map) (hkept : h.kept = true)
    (hdata : h.raddr.toNat + h.vsize.toNat ≤ dll.length) (hsum : h.vaddr.toNat + h.vsize.toNat < 0x100000000)
    (horder : ∀ s ∈ map.getLast?, s.Before (region dll h)) : Regions dll (hs ++ [h]) (map ++ [region dll h]) := by
  have hfin : (h.vaddr + h.vsize).toNat = h.vaddr.toNat + h.vsize.toNat := by
    rw [UInt32.toNat_add, Nat.mod_eq_of_lt hsum]
  refine ⟨?_, ?_, ?_, ?_⟩
  · rw [List.filter_append, List.filter_cons_of_pos hkept, List.filter_nil, List.map_append, ← hmap.regions]
    rfl
  · intro g hg
    rcases List.mem_append.mp hg with hg | hg
    · exact hmap.data g hg
    · rw [List.mem_singleton.mp hg]
      exact fun _ => hdata
  · intro s hs
    rcases List.mem_append.mp hs with hs | hs
    · exact hmap.size s hs
    · rw [List.mem_singleton.mp hs]
      simp only [region, Slice.len, Option.getD_some, length_fileslice hdata, hfin]
      omega
  · -- the last region ends before this one begins, and so do those before it
    rw [← List.isChain_iff_pairwise, List.isChain_append]
    refine ⟨List.isChain_iff_pairwise.mpr hmap.order, List.isChain_singleton _, ?_⟩
    intro s hs t ht
    obtain rfl : region dll h = t := Option.some.inj ht
    exact horder s hs

/-- A header that is kept is appended, cut off at its size in memory. -/
theorem mapsection_silent {loadlen : Nat} (hmap : Regions dll hs map) (h : Sectionheader) :
    Silent (mapsection loadlen (some dll) h map) (Regions dll (hs ++ [h])) := by
  unfold mapsection
  refine Silent.ite (fun _ => ?_) fun _ => .throw
  refine checkadd_silent.bind fun fin hfin => check_silent.bind fun _ horder =>
    checkadd_silent.bind fun rend hrend => ?_
  refine slice3_silent.bind fun mem hmem => ?_
  obtain ⟨rfl, hsum⟩ := hfin
  obtain ⟨rfl, hrsum⟩ := hrend
  obtain ⟨⟨-, -, hfile⟩, hmem⟩ := hmem
  have hrend : (h.raddr + h.rsize).toNat = h.raddr.toNat + h.rsize.toNat := by
    rw [UInt32.toNat_add, Nat.mod_eq_of_lt hrsum]
  have hfile : h.raddr.toNat + h.rsize.toNat ≤ dll.length := by
    rw [hrend] at hfile
    simpa only [Slice.len, Option.getD_some, Int.ofNat_le] using hfile
  have hmem : mem = some (fileslice dll h.raddr.toNat (h.raddr.toNat + h.rsize.toNat)) := by
    rw [hmem, hrend, ← Int.ofNat_sub (Nat.le_add_right _ _)]
    rfl
  have hsnoc : h.vsize ≤ h.rsize → Regions dll (hs ++ [h]) (map ++ [region dll h]) := by
    intro hle
    have hle' := UInt32.le_iff_toNat_le.mp hle
    simp only [not_exists, not_and, not_or, UInt32.not_le, UInt32.not_lt] at horder
    exact hmap.snoc (decide_eq_true hle) (by omega) hsum horder
  refine Silent.ite (fun hlt => .pure ?_) fun hge => Silent.ite (fun hlt => .pure ?_) fun hge' => .pure ?_
  · exact hmap.dropped (decide_eq_false (UInt32.not_le.mpr hlt))
  · have hle : h.vsize.toNat ≤ h.rsize.toNat := UInt32.le_iff_toNat_le.mp (UInt32.le_of_lt hlt)
    have htake : mem.map (·.take h.vsize.toNat) = (region dll h).mem := by
      rw [hmem, Option.map_some, take_fileslice dll _ (by omega)]
      rfl
    rw [htake]
    exact hsnoc (UInt32.le_of_lt hlt)
  · have heq : h.vsize = h.rsize := UInt32.le_antisymm (UInt32.not_lt.mp hge) (UInt32.not_lt.mp hge')
    rw [hmem, ← heq]
    exact hsnoc (UInt32.le_of_eq heq)

end

theorem loadsections_silent (loadlen : Nat) (dll : S8) (sections : Slice) :
    Silent (loadsections loadlen (some dll) sections) fun map =>
      ∃ hs, Entries (headerat sections) loadlen hs ∧ Regions dll hs map := by
  refine forloop_silent (I := fun i map => ∃ hs, Entries (headerat sections) i hs ∧ Regions dll hs map) ?_
    ⟨[], .nil, rfl, nofun, nofun, .nil⟩
  rintro i map hlt ⟨hs, hheaders, hmap⟩
  refine (readsection_silent sections i).bind fun h hh => (mapsection_silent hmap h).mono fun map' hmap' => ?_
  exact ⟨hs ++ [h], hheaders.snoc hh, hmap'⟩

/-! ## Reading from the table -/

/-- Two regions do not overlap. -/
theorem Region.Before.disjoint {s t : Region} (h : s.Before t) (rva : UInt32) :
    ¬ (s.Contains rva ∧ t.Contains rva) := by
  rintro ⟨hs, ht⟩
  exact UInt32.lt_irrefl _ (UInt32.lt_of_lt_of_le hs.2 (UInt32.le_trans h.2 ht.1))

/-- At most one region contains an address. -/
theorem contains_unique {map : List Region} (h : map.Pairwise Region.Before) {rva : UInt32} {s t : Region}
    (hs : s ∈ map) (ht : t ∈ map) (cs : s.Contains rva) (ct : t.Contains rva) : s = t := by
  induction map with
  | nil => cases hs
  | cons u map ih =>
    obtain ⟨hu, hmap⟩ := List.pairwise_cons.mp h
    rcases List.mem_cons.mp hs with rfl | hs'
    · rcases List.mem_cons.mp ht with rfl | ht'
      · rfl
      · exact absurd ⟨cs, ct⟩ ((hu t ht').disjoint rva)
    · rcases List.mem_cons.mp ht with rfl | ht'
      · exact absurd ⟨ct, cs⟩ ((hu s hs').disjoint rva)
      · exact ih hmap hs' ht'

/-- The region that is found contains the address. -/
theorem found_contains {map : List Region} {rva : UInt32} {s : Region}
    (h : map.find? (fun s => s.beg ≤ rva && rva < s.fin) = some s) : s ∈ map ∧ s.Contains rva := by
  have hpred := List.find?_some (p := fun s : Region => s.beg ≤ rva && rva < s.fin) h
  rw [Bool.and_eq_true, decide_eq_true_iff, decide_eq_true_iff] at hpred
  exact ⟨List.mem_of_find?_eq_some h, hpred⟩

theorem loadrva_none {map : List Region} {rva : UInt32} (h : ∀ s ∈ map, ¬ s.Contains rva) :
    loadrva map rva = pure none := by
  have hfind : map.find? (fun s => s.beg ≤ rva && rva < s.fin) = none := by
    rw [List.find?_eq_none]
    intro s hs
    simpa [Region.Contains] using h s hs
  rw [loadrva, hfind]

/-- The bytes from an address to the end of its region. -/
theorem loadrva_pure {dll : S8} {hs : List Sectionheader} {map : List Region} (hmap : Regions dll hs map) {rva : UInt32}
    {h : Sectionheader} (hh : h ∈ hs) (hk : h.kept = true) (hc : (region dll h).Contains rva) :
    loadrva map rva =
      pure (some (fileslice dll (h.raddr.toNat + (rva.toNat - h.vaddr.toNat)) (h.raddr.toNat + h.vsize.toNat))) := by
  have hmem : region dll h ∈ map := by
    rw [hmap.regions]
    exact List.mem_map_of_mem (List.mem_filter.mpr ⟨hh, hk⟩)
  have hfind : map.find? (fun s => s.beg ≤ rva && rva < s.fin) = some (region dll h) := by
    cases hf : map.find? (fun s => s.beg ≤ rva && rva < s.fin) with
    | none => exact absurd (by simpa [Region.Contains] using hc) (List.find?_eq_none.mp hf _ hmem)
    | some s =>
      obtain ⟨hs, hcs⟩ := found_contains hf
      rw [contains_unique hmap.order hs hmem hcs hc]
  have hsize := hmap.size _ hmem
  have hbeg : h.vaddr.toNat ≤ rva.toNat := UInt32.le_iff_toNat_le.mp hc.1
  have hfin : rva.toNat < (h.vaddr + h.vsize).toNat := UInt32.lt_iff_toNat_lt.mp hc.2
  have hlen : Slice.len (region dll h).mem = h.vsize.toNat := by
    simp only [region, Slice.len, Option.getD_some, length_fileslice (hmap.data h hh hk), Nat.add_sub_cancel_left]
  have hsub : (rva - h.vaddr).toNat = rva.toNat - h.vaddr.toNat := UInt32.toNat_sub_of_le _ _ hc.1
  rw [hlen] at hsize
  simp only [region] at hsize
  rw [loadrva, hfind]
  simp only
  rw [slice3, if_neg (by rw [hlen]; simp only [region, hsub]; omega), hlen]
  simp only [region, hsub, Option.map_some, Int.toNat_natCast, drop_fileslice]
  rw [← Int.ofNat_sub (by omega), Int.toNat_natCast, fileslice, List.take_take]
  congr 4
  omega

/-- The bytes that an address reads. -/
def bytesat (map : List Region) (rva : UInt32) : Slice :=
  (map.find? fun s => s.beg ≤ rva && rva < s.fin).bind fun s => s.mem.map (·.drop (rva - s.beg).toNat)

theorem loadrva_eq {dll : S8} {hs : List Sectionheader} {map : List Region} (hmap : Regions dll hs map) (rva : UInt32) :
    loadrva map rva = pure (bytesat map rva) := by
  unfold loadrva bytesat
  cases hf : map.find? (fun s => s.beg ≤ rva && rva < s.fin) with
  | none => rfl
  | some s =>
    obtain ⟨hs, hpred⟩ := found_contains hf
    have hsize := hmap.size s hs
    have hbeg := UInt32.le_iff_toNat_le.mp hpred.1
    have hfin := UInt32.lt_iff_toNat_lt.mp hpred.2
    have hsub : (rva - s.beg).toNat = rva.toNat - s.beg.toNat := UInt32.toNat_sub_of_le _ _ hpred.1
    simp only
    rw [slice3, if_neg (by omega), Int.toNat_natCast, Option.bind_some]
    cases hm : s.mem with
    | none => rfl
    | some bytes =>
      rw [Option.map_some, Option.map_some, List.take_of_length_le]
      simp only [hm, Slice.len, Option.getD_some, List.length_drop] at hsize ⊢
      omega

/-- The table of the only section. -/
theorem loadsections_one {dll sections : Slice} {s : Region}
    (h : (readsection sections 0 >>= fun h => mapsection 1 dll h []) = pure [s]) :
    loadsections 1 dll sections = pure [s] := by
  refine forloop_pure _ (n := 1) (by decide) (u := fun i => if i = 0 then [] else [s]) ?_
  intro i hi
  obtain rfl : i = 0 := Nat.lt_one_iff.mp hi
  exact h

/-- Whatever the file, a section loop that ends without a throw leaves such a table: for
    every address `loadrva` gives the bytes from there to the end of the one region that
    contains it, or the null string when none does, and never throws. -/
theorem loadsections_regions (loadlen : Nat) (dll : S8) (sections : Slice) (out b : U8buf) (map : List Region)
    (h : (loadsections loadlen (some dll) sections).run out = (.ok map, b)) :
    ∃ hs, Entries (headerat sections) loadlen hs ∧ Regions dll hs map ∧
      (map.Pairwise fun s t => ∀ rva, ¬ (s.Contains rva ∧ t.Contains rva)) ∧
      ∀ rva,
        (∃ h ∈ hs, h.kept = true ∧ (region dll h).Contains rva ∧ (∀ s ∈ map, s.Contains rva → s = region dll h) ∧
          loadrva map rva =
            pure (some (fileslice dll (h.raddr.toNat + (rva.toNat - h.vaddr.toNat)) (h.raddr.toNat + h.vsize.toNat)))) ∨
        ((∀ s ∈ map, ¬ s.Contains rva) ∧ loadrva map rva = pure none) := by
  obtain ⟨⟨hs, hheaders, hmap⟩, -⟩ := (loadsections_silent loadlen dll sections).of_run h
  refine ⟨hs, hheaders, hmap, hmap.order.imp fun hst => hst.disjoint, fun rva => ?_⟩
  by_cases hc : ∃ s ∈ map, s.Contains rva
  · obtain ⟨s, hs, hc⟩ := hc
    have hs' := hs
    rw [hmap.regions] at hs'
    obtain ⟨h, hh, rfl⟩ := List.mem_map.mp hs'
    obtain ⟨hh, hk⟩ := List.mem_filter.mp hh
    exact .inl ⟨h, hh, hk, hc, fun s hs' cs => contains_unique hmap.order hs' hs cs hc, loadrva_pure hmap hh hk hc⟩
  · simp only [not_exists, not_and] at hc
    exact .inr ⟨hc, loadrva_none hc⟩

/-- A section of four bytes that the file has eight of, and one that it has not all of. -/
def twosections : S8 :=
  List.replicate 8 0 ++ [4, 0, 0, 0] ++ [0, 0x10, 0, 0] ++ [8, 0, 0, 0] ++ [2, 0, 0, 0] ++ List.replicate 16 0 ++
    List.replicate 8 0 ++ [32, 0, 0, 0] ++ [0, 0x20, 0, 0] ++ [8, 0, 0, 0] ++ [4, 0, 0, 0] ++ List.replicate 16 0

def sixteen : S8 := [0, 1, 2, 3, 4, 5, 6, 7, 8, 9, 10, 11, 12, 13, 14, 15]

theorem loadsections_twosections : (loadsections 2 (some sixteen) (some twosections)).run newu8buf =
    (.ok [⟨0x1000, 0x1004, some [2, 3, 4, 5]⟩], newu8buf) := by
  have h : loadsections 2 (some sixteen) (some twosections) = _ :=
    forloop_pure _ (n := 2) (by decide) (u := fun i => if i = 0 then [] else [⟨0x1000, 0x1004, some [2, 3, 4, 5]⟩]) ?_
  · rw [h]
    rfl
  · intro i hi
    rcases Nat.lt_succ_iff_lt_or_eq.mp hi with hi | rfl
    · obtain rfl : i = 0 := Nat.lt_one_iff.mp hi
      rfl
    · rfl

theorem loadsections_regions_twosections :
    ∃ hs, Entries (headerat (some twosections)) 2 hs ∧ Regions sixteen hs [⟨0x1000, 0x1004, some [2, 3, 4, 5]⟩] := by
  obtain ⟨hs, hheaders, hmap, -⟩ :=
    loadsections_regions 2 sixteen (some twosections) newu8buf newu8buf _ loadsections_twosections
  exact ⟨hs, hheaders, hmap⟩

end GnuWindows.Peports
