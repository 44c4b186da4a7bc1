/-
  GnuWindows.Peports.Safety — no image makes `processpe` fault.

  The counters of the loops stay small because what they index was read: a slice holds no
  more bytes than the file. Each loop's invariant bounds its counter by its slice.

  Proved: what a loop over the counter keeps (`forloop_gives`), what the section loop
  gives (`loadsections_gives`), and that with any file of the size that is loaded at most
  nothing but a throw stops `processpe` (`processpe_safe`).
-/
import GnuWindows.Peports.Processpe

namespace GnuWindows.Peports

open GnuWindows.PkgConfig (S8)

/-- Seven eighths of 2^29 bytes. -/
def loadmax : Int := 0x1c000000

/-- No larger than a file can be. -/
def Slice.Small (s : Slice) : Prop := s.len ≤ loadmax

/-- Every region lies in the file. -/
def Mapped (map : List Region) : Prop := ∀ s ∈ map, s.mem.Small

theorem thrown : ∀ e, Thrown e → Thrown e := fun _ h => h

theorem Slice.Small.mono {s r : Slice} (h : s.Small) (hle : r.len ≤ s.len) : r.Small := Int.le_trans hle h

/-! ## Loops -/

/-- What every turn keeps holds at the end. -/
theorem forloop_gives {E : Fault → Prop} {τ : Type} {n : Int} {body : Int → τ → Pe τ} {I : Int → τ → Prop} {start : τ}
    (hn : n ≤ 0x7fffffff) (hturn : ∀ i t, 0 ≤ i → i < n → I i t → Gives E (body i t) (I (i + 1))) (hstart : I 0 start) :
    Gives E (forloop n body start) fun t => ∃ i, n ≤ i ∧ I i t := by
  refine Gives.map (Q := fun t => n ≤ t.1 ∧ I t.1 t.2) ?_ fun t h => ⟨t.1, h⟩
  refine Gives.loop (I := fun t => 0 ≤ t.1 ∧ I t.1 t.2) (fun t ht => ?_) ⟨Int.le_refl 0, hstart⟩
  apply Gives.ite
  · intro hlt
    have hpos := ht.1
    refine (hturn t.1 t.2 hpos hlt ht.2).bind fun next hnext => ?_
    refine (i32_gives (Or.inr (by omega))).bind fun i hi => .pure ?_
    subst hi
    exact ⟨by omega, hnext⟩
  · exact fun hge => .pure ⟨by omega, ht.2⟩

/-! ## Reading -/

theorem check_gives {c : Prop} [Decidable c] {reason : String} : Gives Thrown (check c reason) fun _ => ¬ c :=
  .ite (fun _ => throws_gives thrown) fun h => .pure h

theorem store_gives {array : S8} {i : Nat} (b : UInt8) (h : i < array.length) :
    Gives Thrown (store array i b) fun r => r.length = array.length :=
  .ite (fun _ => .pure (List.length_set ..)) fun hge => absurd h hge

theorem loadrva_gives {map : List Region} (h : Mapped map) (vaddr : UInt32) :
    Gives Thrown (loadrva map vaddr) Slice.Small := by
  unfold loadrva
  split
  · exact .pure (by show (0 : Int) ≤ _; decide)
  · rename_i s hs
    refine (slice3_gives thrown).mono fun r hr => (h s (List.mem_of_find?_eq_some hs)).mono ?_
    omega

/-! ## The sections -/

/-- A field of a section header. -/
theorem readfield_gives {α : Type} {sections : Slice} {i k : Int} {f : UInt32 → Pe α} {Q : α → Prop}
    (hi : 0 ≤ i ∧ i < 96) (hk : 0 ≤ k ∧ k ≤ 20) (hf : ∀ v, Gives Thrown (f v) Q) :
    Gives Thrown (i32 (40 * i) >>= fun a => i32 (a + k) >>= fun off => readu32 sections off >>= f) Q := by
  refine (i32_gives (Or.inr (by omega))).bind fun a ha => ?_
  refine (i32_gives (Or.inr (by omega))).bind fun off hoff => ?_
  exact (readu32_gives thrown (Or.inr (by omega))).bind fun v _ => hf v

theorem readsection_gives {sections : Slice} {i : Int} (h : 0 ≤ i ∧ i < 96) :
    Gives Thrown (readsection sections i) fun _ => True := by
  refine readfield_gives h (by decide) fun vsize => ?_
  refine readfield_gives h (by decide) fun vaddr => ?_
  refine readfield_gives h (by decide) fun rsize => ?_
  exact readfield_gives h (by decide) fun raddr => .pure trivial

theorem small_take {s : Slice} (h : s.Small) (n : Nat) : Slice.Small (s.map (·.take n)) := by
  apply h.mono
  cases s with
  | none => exact Int.le_refl _
  | some bytes =>
    simp only [Slice.len, Option.map_some, Option.getD_some, List.length_take]
    omega

/-- A section is stored in its place of the table, and lies in the file. -/
theorem mapsection_gives {loadlen : Nat} {dll : Slice} (hdll : dll.Small) {h : Sectionheader} {map : List Region}
    (hlen : map.length < loadlen) (hmap : Mapped map) :
    Gives Thrown (mapsection loadlen dll h map) fun r => r.length ≤ map.length + 1 ∧ Mapped r := by
  have hsnoc : ∀ s : Region, s.mem.Small → (map ++ [s]).length ≤ map.length + 1 ∧ Mapped (map ++ [s]) := by
    intro s hs
    refine ⟨by rw [List.length_append]; exact Nat.le_refl _, fun x hx => ?_⟩
    rcases List.mem_append.mp hx with hx | hx
    · exact hmap x hx
    · rw [List.mem_singleton.mp hx]; exact hs
  refine Gives.ite (fun _ => ?_) fun hge => absurd hlen hge
  refine (checkadd_gives thrown).bind fun fin _ => check_gives.bind fun _ _ => ?_
  refine (checkadd_gives thrown).bind fun rend _ => (slice3_gives thrown).bind fun mem hmem => ?_
  have hsmall : mem.Small := by
    apply hdll.mono
    omega
  refine Gives.ite (fun _ => .pure ⟨by omega, hmap⟩) fun _ => ?_
  refine Gives.ite (fun _ => .pure (hsnoc _ (small_take hsmall _))) fun _ => .pure (hsnoc _ hsmall)

/-- At most `loadlen` regions are stored. -/
theorem loadsections_gives {loadlen : Nat} (hload : loadlen ≤ 96) {dll : Slice} (hdll : dll.Small) (sections : Slice) :
    Gives Thrown (loadsections loadlen dll sections) fun map => map.length ≤ loadlen ∧ Mapped map := by
  refine (forloop_gives (I := fun i map => (map.length : Int) ≤ i ∧ map.length ≤ loadlen ∧ Mapped map) (by omega) ?_
    ⟨by decide, Nat.zero_le _, List.forall_mem_nil _⟩).mono fun map h => by obtain ⟨_, _, _, h⟩ := h; exact h
  intro i map hpos hlt h
  refine (readsection_gives ⟨hpos, by omega⟩).bind fun header _ => ?_
  refine (mapsection_gives hdll (by omega) h.2.2).mono fun r hr => ⟨by omega, by omega, hr.2⟩

/-! ## Exports -/

theorem forwarder_gives {map : List Region} (h : Mapped map) (x : Exports) (addr : UInt32) :
    Gives Thrown (forwarder map x addr) fun _ => True :=
  .ite (fun _ => (loadrva_gives h addr).map fun _ _ => trivial) fun _ => .pure trivial

theorem printmodule_gives (oswrite : List S8 → S8 → Bool) (module : Slice) :
    Gives Thrown (printmodule oswrite module) fun _ => True := by
  refine Gives.ite (fun _ => ?_) fun _ => .pure trivial
  exact (print_gives oswrite _).bind fun _ _ => (printname_gives oswrite _).bind fun _ _ => print_gives oswrite _

/-- The counter stays below half of the ordinals that were read. -/
theorem printnamed_gives (oswrite : List S8 → S8 → Bool) {map : List Region} (hmap : Mapped map) {x : Exports}
    (hords : x.ordinals.Small) {i : Int} (hi : 0 ≤ i) {seen : S8} (hlen : 2 * i ≤ x.ordinals.len)
    (hseen : (seen.length : Int) = x.naddrs) :
    Gives Thrown (printnamed oswrite map x i seen) fun r =>
      2 * (i + 1) ≤ x.ordinals.len ∧ (r.length : Int) = x.naddrs := by
  unfold Slice.Small loadmax at hords
  refine (i32_gives (Or.inr (by omega))).bind fun off hoff => ?_
  refine (readu16_gives thrown (Or.inr (by omega))).bind fun ordinal hread => ?_
  have hordinal := ordinal.toNat_lt
  refine check_gives.bind fun _ hin => ?_
  refine (store_gives 1 (by omega)).bind fun seen' hseen' => ?_
  refine (i32_gives (Or.inr (by omega))).bind fun off₁ hoff₁ => ?_
  refine (readu32_gives thrown (Or.inr (by omega))).bind fun addr _ => ?_
  refine (forwarder_gives hmap x addr).bind fun module _ => (print_gives oswrite _).bind fun _ _ => ?_
  refine (checkadd_gives thrown).bind fun ordend _ => (printu32_gives oswrite _).bind fun _ _ => ?_
  refine (print_gives oswrite _).bind fun _ _ => (i32_gives (Or.inr (by omega))).bind fun off₂ hoff₂ => ?_
  refine (readu32_gives thrown (Or.inr (by omega))).bind fun off₃ _ => ?_
  refine ((loadrva_gives hmap off₃).map (R := fun _ => True) fun _ _ => trivial).bind fun name _ => ?_
  refine (printname_gives oswrite _).bind fun _ _ => (printmodule_gives oswrite _).bind fun _ _ => ?_
  refine (print_gives oswrite _).bind fun _ _ => .pure ⟨by omega, by omega⟩

theorem printunseen_gives (oswrite : List S8 → S8 → Bool) (ordbase : UInt32) {seen : S8} {i : Int}
    (h : 0 ≤ i ∧ i < seen.length) : Gives Thrown (printunseen oswrite ordbase seen i) fun _ => True := by
  refine (load_gives (Or.inr h)).bind fun b _ => ?_
  refine Gives.ite (fun _ => ?_) fun _ => .pure trivial
  refine (print_gives oswrite _).bind fun _ _ => (checkadd_gives thrown).bind fun ordend _ => ?_
  exact (printu32_gives oswrite _).bind fun _ _ => print_gives oswrite _

theorem listexports_gives (oswrite : List S8 → S8 → Bool) {map : List Region} (hmap : Mapped map) (scratch : Arena)
    (edata : Slice) (edataoff edataend : UInt32) :
    Gives Thrown (listexports oswrite map scratch edata edataoff edataend) fun _ => True := by
  have hread : ∀ off, 0 ≤ off → Gives Thrown (readu32 edata off) fun _ => True :=
    fun off hoff => (readu32_gives thrown (Or.inr hoff)).mono fun _ _ => trivial
  have hcount : ∀ off, 0 ≤ off → Gives Thrown (toi32 <$> readu32 edata off) fun n => n ≤ 0x7fffffff := by
    intro off hoff
    refine (hread off hoff).map fun v _ => ?_
    have := toi32_lt v
    omega
  refine (print_gives oswrite _).bind fun _ _ => (hread _ (by decide)).bind fun ordbase _ => ?_
  refine (hcount _ (by decide)).bind fun naddrs haddrs => (hcount _ (by decide)).bind fun nnames hnames => ?_
  refine check_gives.bind fun _ hpos => (alloc_gives thrown (by omega)).bind fun _ _ => ?_
  refine (hread _ (by decide)).bind fun addrsoff _ => (loadrva_gives hmap addrsoff).bind fun addrs _ => ?_
  refine (hread _ (by decide)).bind fun namesoff _ => (loadrva_gives hmap namesoff).bind fun names _ => ?_
  refine (hread _ (by decide)).bind fun ordsoff _ => (loadrva_gives hmap ordsoff).bind fun ordinals hords => ?_
  refine (forloop_gives (I := fun i seen => 2 * i ≤ ordinals.len ∧ (seen.length : Int) = naddrs) hnames ?_ ?_).bind
    fun seen hseen => ?_
  · intro i seen hi _ h
    exact printnamed_gives oswrite hmap hords hi h.1 h.2
  · have := ordinals.len_nonneg
    rw [List.length_replicate]
    omega
  · obtain ⟨_, _, _, hlen⟩ := hseen
    refine (forloop_gives (I := fun _ _ => True) haddrs ?_ trivial).mono fun _ _ => trivial
    exact fun i _ hi hlt _ => printunseen_gives oswrite ordbase ⟨hi, by omega⟩

/-! ## Imports -/

/-- The entries of a lookup table before this one lie in it. -/
def Read (type : Petype) (table : Slice) (j : Int) : Prop :=
  match type with
  | .PE32 => 4 * j ≤ table.len
  | .PE64 => 8 * j ≤ table.len

theorem lookupaddr_next {type : Petype} {table : Slice} (hsmall : table.Small) {j : Int} (hj : 0 ≤ j)
    (h : Read type table j) : Gives Thrown (lookupaddr type table j) fun _ => Read type table (j + 1) := by
  unfold Slice.Small loadmax at hsmall
  cases type with
  | PE32 =>
    unfold Read at h ⊢
    refine (i32_gives (Or.inr (by omega))).bind fun off hoff => ?_
    exact (readu32_gives thrown (Or.inr (by omega))).mono fun _ hread => by omega
  | PE64 =>
    unfold Read at h ⊢
    refine (i32_gives (Or.inr (by omega))).bind fun off hoff => ?_
    refine (i32_gives (Or.inr (by omega))).bind fun off₁ hoff₁ => ?_
    refine (readu32_gives thrown (Or.inr (by omega))).bind fun high hread => ?_
    refine (i32_gives (Or.inr (by omega))).bind fun off₂ hoff₂ => ?_
    refine (i32_gives (Or.inr (by omega))).bind fun off₃ hoff₃ => ?_
    refine (readu32_gives thrown (Or.inr (by omega))).bind fun low _ => .pure ?_
    omega

theorem printentry_gives (oswrite : List S8 → S8 → Bool) {map : List Region} (hmap : Mapped map) (addr : UInt32) :
    Gives Thrown (printentry oswrite map addr) fun _ => True := by
  refine Gives.ite (fun _ => ?_) fun _ => ?_
  · exact (printu32_gives oswrite _).bind fun _ _ => print_gives oswrite _
  · refine (loadrva_gives hmap addr).bind fun entry _ => ?_
    refine (readu16_gives thrown (Or.inr (by decide))).bind fun hint _ => ?_
    refine (printu32_gives oswrite _).bind fun _ _ => (print_gives oswrite _).bind fun _ _ => ?_
    refine ((slice2_gives thrown).map (R := fun _ => True) fun _ _ => trivial).bind fun name _ => ?_
    exact printname_gives oswrite _

theorem listtable_gives (oswrite : List S8 → S8 → Bool) {map : List Region} (hmap : Mapped map) (type : Petype)
    {table : Slice} (hsmall : table.Small) : Gives Thrown (listtable oswrite map type table) fun _ => True := by
  have hlen := table.len_nonneg
  refine Gives.loop (I := fun j => 0 ≤ j ∧ Read type table j) (fun j hj => ?_) ⟨Int.le_refl 0, ?_⟩
  · refine (lookupaddr_next hsmall hj.1 hj.2).bind fun addr hread => ?_
    refine Gives.ite (fun _ => .pure trivial) fun _ => ?_
    refine (print_gives oswrite _).bind fun _ _ => (printentry_gives oswrite hmap addr).bind fun _ _ => ?_
    refine (print_gives oswrite _).bind fun _ _ => (i32_gives (Or.inr ?_)).bind fun j' hj' => .pure ?_
    · have hj := hj.1
      unfold Slice.Small loadmax at hsmall
      cases type <;> simp only [Read] at hread <;> omega
    · subst hj'
      exact ⟨by omega, hread⟩
  · cases type <;> simpa [Read] using hlen

theorem listimports_gives (oswrite : List S8 → S8 → Bool) {map : List Region} (hmap : Mapped map) (type : Petype)
    {idata : Slice} (hsmall : idata.Small) (idataoff : UInt32) :
    Gives Thrown (listimports oswrite map type idata idataoff) fun _ => True := by
  have hlen := idata.len_nonneg
  unfold Slice.Small loadmax at hsmall
  refine Gives.loop (I := fun t => 0 ≤ t.1 ∧ 20 * t.1 ≤ idata.len + 4) (fun t ht => ?_)
    ⟨Int.le_refl 0, by simp only; omega⟩
  refine (i32_gives (Or.inr (by omega))).bind fun off hoff => ?_
  refine Gives.ite (fun _ => .pure trivial) fun _ => ?_
  refine (i32_gives (Or.inr (by omega))).bind fun off₁ hoff₁ => ?_
  refine (i32_gives (Or.inr (by omega))).bind fun off₂ hoff₂ => ?_
  refine (readu32_gives thrown (Or.inr (by omega))).bind fun tableoff _ => ?_
  refine (i32_gives (Or.inr (by omega))).bind fun off₃ hoff₃ => ?_
  refine (i32_gives (Or.inr (by omega))).bind fun off₄ hoff₄ => ?_
  refine (readu32_gives thrown (Or.inr (by omega))).bind fun nameoff hread => ?_
  refine Gives.ite (fun _ => .pure trivial) fun _ => ?_
  refine ((loadrva_gives hmap nameoff).map (R := fun _ => True) fun _ _ => trivial).bind fun name _ => ?_
  refine Gives.ite (fun _ => .pure trivial) fun _ => ?_
  refine (printname_gives oswrite _).bind fun _ _ => (print_gives oswrite _).bind fun _ _ => ?_
  refine (loadrva_gives hmap tableoff).bind fun table htable => ?_
  refine Gives.ite (fun _ => .pure trivial) fun _ => ?_
  refine (listtable_gives oswrite hmap type htable).bind fun _ _ => ?_
  refine (i32_gives (Or.inr (by omega))).bind fun i hi => .pure ?_
  exact ⟨by simp only; omega, by simp only; omega⟩

/-! ## The image -/

theorem petype_gives (magic : UInt16) : Gives Thrown (petype magic) fun _ => True :=
  .ite (fun _ => .pure trivial) fun _ => .ite (fun _ => .pure trivial) fun _ => throws_gives thrown

theorem directory_nonneg (type : Petype) {off : Int} (h : 0 ≤ off) : 0 ≤ directory type off := by
  unfold directory
  split <;> omega

theorem readdirectory_gives (pe : Slice) (type : Petype) {off : Int} (h : 0 ≤ off) :
    Gives Thrown (readu32 pe (directory type off)) fun _ => True :=
  (readu32_gives thrown (Or.inr (directory_nonneg type h))).mono fun _ _ => trivial

theorem processexports_gives (oswrite : List S8 → S8 → Bool) (conf : Config) {map : List Region} (hmap : Mapped map)
    (scratch : Arena) (pe : Slice) (type : Petype) :
    Gives Thrown (processexports oswrite conf map scratch pe type) fun _ => True := by
  refine (readdirectory_gives pe type (by decide)).bind fun edataoff _ => ?_
  refine (readdirectory_gives pe type (by decide)).bind fun edatalen _ => ?_
  refine (checkadd_gives thrown).bind fun edataend _ => (loadrva_gives hmap edataoff).bind fun edata _ => ?_
  exact .ite (fun _ => listexports_gives oswrite hmap scratch edata edataoff edataend) fun _ => .pure trivial

theorem processimports_gives (oswrite : List S8 → S8 → Bool) (conf : Config) {map : List Region} (hmap : Mapped map)
    (pe : Slice) (type : Petype) : Gives Thrown (processimports oswrite conf map pe type) fun _ => True := by
  refine (readdirectory_gives pe type (by decide)).bind fun idataoff _ => ?_
  refine (readdirectory_gives pe type (by decide)).bind fun idatalen _ => ?_
  refine (loadrva_gives hmap idataoff).bind fun idata hidata => ?_
  exact .ite (fun _ => (listimports_gives oswrite hmap type hidata idataoff).map fun _ _ => trivial) fun _ =>
    .pure trivial

theorem processpe_gives (oswrite : List S8 → S8 → Bool) (conf : Config) (scratch : Arena) {dll : S8}
    (hdll : Slice.Small (some dll)) : Gives Thrown (processpe oswrite conf scratch dll) fun _ => True := by
  have hhalf : ∀ (pe : Slice) (off : Int), 0 ≤ off → Gives Thrown (readu16 pe off) fun _ => True :=
    fun pe off hoff => (readu16_gives thrown (Or.inr hoff)).mono fun _ _ => trivial
  refine (readu32_gives thrown (Or.inr (by decide))).bind fun peoff _ => (slice2_gives thrown).bind fun pe _ => ?_
  refine (slice3_gives thrown).bind fun pehdr _ => check_gives.bind fun _ _ => ?_
  refine (hhalf pe _ (by decide)).bind fun nsections _ => (hhalf pe _ (by decide)).bind fun hdrsize _ => ?_
  refine (hhalf pe _ (by decide)).bind fun magic _ => (petype_gives magic).bind fun type _ => ?_
  refine (alloc_gives thrown (Int.natCast_nonneg _)).bind fun scratch' _ => ?_
  refine (slice2_gives thrown).bind fun sections _ => ?_
  refine (loadsections_gives (by split <;> omega) hdll sections).bind fun map hmap => ?_
  refine (processexports_gives oswrite conf hmap.2 scratch' pe type).bind fun _ _ => ?_
  exact processimports_gives oswrite conf hmap.2 pe type

/-- For every file of the size that is loaded at most, all options, any arena, and
    whatever was printed and is written: the image is processed to its end or something is
    thrown. No slice or array is left, the section table included, and no index
    overflows; the section table holds `loadlen` regions at most. -/
theorem processpe_safe (oswrite : List S8 → S8 → Bool) (conf : Config) (scratch : Arena) (out : U8buf) (dll : S8)
    (h : dll.length ≤ 0x1c000000) :
    (∃ b, (processpe oswrite conf scratch dll).run out = (.ok (), b) ∨
      ∃ reason, (processpe oswrite conf scratch dll).run out = (.error (.throw reason), b)) ∧
      ∀ loadlen ≤ 96, ∀ sections map b, (loadsections loadlen (some dll) sections).run out = (.ok map, b) →
        map.length ≤ loadlen := by
  have hsmall : Slice.Small (some dll) := by
    show (dll.length : Int) ≤ loadmax
    unfold loadmax
    omega
  constructor
  · have hends := (processpe_gives oswrite conf scratch hsmall).outcome out trivial
    cases hrun : (processpe oswrite conf scratch dll).run out with
    | mk r b =>
      rw [hrun] at hends
      refine ⟨b, ?_⟩
      cases r with
      | ok u => exact Or.inl rfl
      | error e =>
        obtain ⟨reason, rfl⟩ := hends.of_error rfl
        exact Or.inr ⟨reason, rfl⟩
  · intro loadlen hload sections map b hrun
    have hends := (loadsections_gives hload hsmall sections).outcome out trivial
    rw [hrun] at hends
    exact (hends.of_ok rfl).1

/-- A 32-bit image with the directory entries `dirs` and one section, mapped to 0x1000. -/
def image32 (dirs : S8) (size : UInt8) (data : S8) : S8 :=
  List.replicate 0x3c 0 ++ [0x40, 0, 0, 0] ++ [0x50, 0x45, 0, 0] ++ [0, 0, 1, 0] ++ List.replicate 12 0 ++
    [112, 0, 0, 0] ++
    [0x0b, 0x01] ++ List.replicate 94 0 ++ dirs ++ List.replicate 8 0 ++ [size, 0, 0, 0] ++ [0, 0x10, 0, 0] ++
    [size, 0, 0, 0] ++ [240, 0, 0, 0] ++ List.replicate 16 0 ++ data

/-- Two addresses, the second one with a name. -/
def twoexports : S8 :=
  image32 ([0, 0x10, 0, 0] ++ [56, 0, 0, 0] ++ List.replicate 8 0) 56
    (List.replicate 16 0 ++ [5, 0, 0, 0] ++ [2, 0, 0, 0] ++ [1, 0, 0, 0] ++ [40, 0x10, 0, 0] ++ [48, 0x10, 0, 0] ++
      [52, 0x10, 0, 0] ++ [0, 0x20, 0, 0] ++ [0, 0x20, 0, 0] ++ [54, 0x10, 0, 0] ++ [1, 0] ++ [0x61, 0])

def page : Arena := ⟨0x1000, 0x2000, by omega, by omega⟩

theorem processpe_safe_twoexports :
    (∃ b, (processpe (fun _ _ => true) ⟨true, true⟩ page twoexports).run newu8buf = (.ok (), b) ∨
      ∃ reason, (processpe (fun _ _ => true) ⟨true, true⟩ page twoexports).run newu8buf =
        (.error (.throw reason), b)) ∧
      ∀ loadlen ≤ 96, ∀ sections map b, (loadsections loadlen (some twoexports) sections).run newu8buf = (.ok map, b) →
        map.length ≤ loadlen :=
  processpe_safe (fun _ _ => true) ⟨true, true⟩ page newu8buf twoexports (by decide +kernel)

end GnuWindows.Peports
