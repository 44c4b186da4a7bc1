/-
  GnuWindows.Peports.ExportTable — what `processpe` lists of the export directory.

  The two loops over it meet in `seen`: the first marks the ordinals that names refer to,
  the second lists those that are not marked.

  Proved:
  - `printnamed_prints`, `printunseen_prints`: what a turn of each loop prints and marks.
  - `listexports_prints`: the lines of the named entries in order, then those of the other
    indices in ascending order.
  - `exports_listed`: so is it of every image that is processed to its end; nothing else is
    printed but the imports, behind it.
-/
import GnuWindows.Peports.Image
import GnuWindows.Peports.Safety

namespace GnuWindows.Peports

open GnuWindows.Lib.Hoare (Says Done)
open GnuWindows.PkgConfig (S8 S)

variable {oswrite : List S8 → S8 → Bool}

/-- The export directory of an image. -/
structure Exportdirectory {dll : S8} (image : Image dll) where
  off : UInt32
  len : UInt32
  ordbase : UInt32
  naddrs : UInt32
  nnames : UInt32
  addrs : UInt32
  names : UInt32
  ordinals : UInt32
  off_at : image.directory 96 = some off
  len_at : image.directory 100 = some len
  ordbase_at : u32at (image.mem off) 16 = some ordbase
  naddrs_at : u32at (image.mem off) 20 = some naddrs
  nnames_at : u32at (image.mem off) 24 = some nnames
  addrs_at : u32at (image.mem off) 28 = some addrs
  names_at : u32at (image.mem off) 32 = some names
  ordinals_at : u32at (image.mem off) 36 = some ordinals
  naddrs_lt : naddrs.toNat < 0x80000000
  nnames_lt : nnames.toNat < 0x80000000

/-- An entry of the name pointer table. -/
structure Exportentry where
  ordinal : UInt16
  addr : UInt32
  name : UInt32

def moduletext (module : Slice) : S8 := if module.isSome then S " <" ++ (nametext module ++ S ">") else []

namespace Exportdirectory

variable {dll : S8} {image : Image dll} (dir : Exportdirectory image)

/-- The directory as the loops use it. -/
def exports : Exports :=
  ⟨dir.off, dir.off + dir.len, dir.ordbase, dir.naddrs.toNat, dir.nnames.toNat, image.mem dir.addrs,
    image.mem dir.names,
    image.mem dir.ordinals⟩

/-- An entry of the address table. -/
def address (k : Nat) : Option UInt32 := u32at (image.mem dir.addrs) (4 * k)

def entry (i : Nat) : Option Exportentry := do
  let ordinal ← u16at (image.mem dir.ordinals) (2 * i)
  let addr ← dir.address ordinal.toNat
  let name ← u32at (image.mem dir.names) (4 * i)
  pure ⟨ordinal, addr, name⟩

/-- The name that an address inside of the directory forwards to. -/
def module (addr : UInt32) : Slice :=
  if dir.off ≤ addr ∧ addr < dir.off + dir.len then nullterm (image.mem addr) else none

/-- The line of a named entry. -/
def line (e : Exportentry) : S8 :=
  S "\t" ++ (digits (e.ordinal.toNat + dir.ordbase.toNat) ++ (S "\t" ++
    (nametext (nullterm (image.mem e.name)) ++ (moduletext (dir.module e.addr) ++ S "\n"))))

/-- The line of an index without a name. -/
def noname (k : Nat) : S8 := S "\t" ++ (digits (k + dir.ordbase.toNat) ++ S "\t<NONAME>\n")

end Exportdirectory

/-- An entry refers to the index. -/
def refers (es : List Exportentry) (k : Nat) : Bool := es.any (·.ordinal.toNat == k)

/-- The indices that no entry refers to, in ascending order. -/
def unseen (es : List Exportentry) (n : Nat) : List Nat := (List.range n).filter fun k => !refers es k

/-- The array `seen` after the entries. -/
def marks (es : List Exportentry) (n : Nat) : S8 := (List.range n).map fun k => if refers es k then 1 else 0

theorem length_marks (es : List Exportentry) (n : Nat) : (marks es n).length = n := by
  rw [marks, List.length_map, List.length_range]

theorem refers_snoc (es : List Exportentry) (e : Exportentry) (k : Nat) :
    refers (es ++ [e]) k = (refers es k || e.ordinal.toNat == k) := by
  rw [refers, List.any_append, List.any_cons, List.any_nil, Bool.or_false]
  rfl

theorem marks_snoc (es : List Exportentry) (e : Exportentry) (n : Nat) :
    (marks es n).set e.ordinal.toNat 1 = marks (es ++ [e]) n := by
  apply List.ext_getElem
  · rw [List.length_set, length_marks, length_marks]
  · intro k hk hk'
    simp only [marks, List.getElem_set, List.getElem_map, List.getElem_range, refers_snoc, Bool.or_eq_true, beq_iff_eq]
    by_cases h : e.ordinal.toNat = k <;> simp [h]

/-! ## The loop over the names -/

theorem printmodule_eq (module : Slice) : printmodule oswrite module = print oswrite (moduletext module) := by
  unfold printmodule moduletext
  split
  · rw [printname_eq, print_print, print_print]
  · exact print_nil.symm

theorem forwarder_eq {dll : S8} {image : Image dll} (dir : Exportdirectory image) (addr : UInt32) :
    forwarder image.map dir.exports addr = pure (dir.module addr) := by
  unfold forwarder Exportdirectory.module
  show (if dir.off ≤ addr ∧ addr < dir.off + dir.len then _ else _) = _
  split
  · rw [image.loadrva_eq]
    rfl
  · rfl

theorem printnamed_prints {dll : S8} {image : Image dll} (dir : Exportdirectory image) (i : Nat) (seen : S8) :
    Prints oswrite (printnamed oswrite image.map dir.exports i seen) (Done fun seen' text =>
      ∃ e, dir.entry i = some e ∧ e.ordinal.toNat < dir.naddrs.toNat ∧
        e.ordinal.toNat + dir.ordbase.toNat < 0x100000000 ∧ seen' = seen.set e.ordinal.toNat 1 ∧
        text = dir.line e) := by
  refine .silent_bind i32_silent fun off hoff => .silent_bind (readu16_silent (n := 2 * i) (by omega))
    fun ordinal hordinal => ?_
  refine .silent_bind check_silent fun _ hin => .silent_bind store_silent fun seen' hseen => ?_
  refine .silent_bind i32_silent fun off₁ hoff₁ => .silent_bind (readu32_silent (n := 4 * ordinal.toNat) (by omega))
    fun addr haddr => ?_
  rw [forwarder_eq, pure_bind]
  refine .done_put (.silent_bind checkadd_silent fun ordend hordend => ?_)
  rw [printu32_eq]
  refine .done_put (.done_put (.silent_bind i32_silent fun off₂ hoff₂ => ?_))
  refine .silent_bind (readu32_silent (n := 4 * i) (by omega)) fun name hname => ?_
  rw [image.loadrva_eq, map_pure, pure_bind, printname_eq, printmodule_eq]
  refine .done_put (.done_put (.done_put (.done_pure ?_)))
  have hsum : ordinal.toUInt32.toNat = ordinal.toNat := UInt16.toNat_toUInt32 ordinal
  have hordend : ordend = ordinal.toUInt32 + dir.ordbase ∧ ordinal.toUInt32.toNat + dir.ordbase.toNat < 0x100000000 :=
    hordend
  obtain ⟨rfl, hlt⟩ := hordend
  rw [hsum] at hlt
  have hordinal : u16at (image.mem dir.ordinals) (2 * i) = some ordinal := hordinal
  have haddr : u32at (image.mem dir.addrs) (4 * ordinal.toNat) = some addr := haddr
  have hname : u32at (image.mem dir.names) (4 * i) = some name := hname
  have hin : ¬ (dir.naddrs.toNat : Int) ≤ ordinal.toNat := hin
  refine ⟨⟨ordinal, addr, name⟩, ?_, by show ordinal.toNat < _; omega, hlt, hseen.2, ?_⟩
  · simp only [Exportdirectory.entry, Exportdirectory.address, hordinal, haddr, hname, Option.bind_eq_bind,
      Option.bind_some]
    rfl
  · have hord : (ordinal.toUInt32 + dir.ordbase).toNat = ordinal.toNat + dir.ordbase.toNat := by
      rw [UInt32.toNat_add, hsum, Nat.mod_eq_of_lt hlt]
    rw [hord, List.append_nil]
    rfl

/-! ## The loop over the indices -/

theorem toNat_ofInt {i : Nat} (h : i < 0x100000000) : (UInt32.ofInt i).toNat = i := by
  rw [UInt32.ofInt, UInt32.toNat_ofNat']
  omega

/-- What the second loop reads of the marks. -/
theorem load_marks {es : List Exportentry} {n i : Nat} (hi : i < n) :
    load (some (marks es n)) i = pure (if refers es i then 1 else 0) := by
  apply load_eq
  rw [u8at, Option.getD_some, marks, List.getElem?_map, List.getElem?_range hi, Option.map_some]

/-- An index that an entry refers to is passed over, any other is printed. -/
theorem printunseen_marks {es : List Exportentry} {n i : Nat} (hi : i < n) (ordbase : UInt32) :
    printunseen oswrite ordbase (marks es n) i =
      if refers es i then pure () else (do
        print oswrite (S "\t")
        let ordend ← checkadd (UInt32.ofInt i) ordbase
        printu32 oswrite ordend
        print oswrite (S "\t<NONAME>\n")) := by
  unfold printunseen
  rw [load_marks hi, pure_bind]
  cases refers es i with
  | true => exact if_neg (by decide)
  | false => exact if_pos (by decide)

theorem printunseen_prints {dll : S8} {image : Image dll} (dir : Exportdirectory image) (es : List Exportentry)
    {i : Nat} (hi : i < dir.naddrs.toNat) :
    Prints oswrite (printunseen oswrite dir.ordbase (marks es dir.naddrs.toNat) i) (Done fun _ text =>
      (refers es i = true ∧ text = []) ∨
      (refers es i = false ∧ i + dir.ordbase.toNat < 0x100000000 ∧ text = dir.noname i)) := by
  rw [printunseen_marks hi]
  cases hr : refers es i with
  | true => exact .done_pure (.inl ⟨rfl, rfl⟩)
  | false =>
    refine .done_put (.silent_bind checkadd_silent fun ordend hordend => ?_)
    rw [printu32_eq]
    refine .done_put (.put fun _ _ => .inr ?_)
    obtain ⟨rfl, hlt⟩ := hordend
    have hsmall := dir.naddrs_lt
    have hofInt := toNat_ofInt (show i < 0x100000000 by omega)
    rw [hofInt] at hlt
    refine ⟨rfl, hlt, ?_⟩
    rw [UInt32.toNat_add, hofInt, Nat.mod_eq_of_lt hlt]
    rfl

theorem unseen_succ (es : List Exportentry) (n : Nat) :
    unseen es (n + 1) = unseen es n ++ if refers es n then [] else [n] := by
  rw [unseen, List.range_succ, List.filter_append, unseen]
  cases h : refers es n <;> simp [h]

/-- The entries are those of the name pointer table, and no ordinal that is printed wraps
    around. -/
structure Listed {dll : S8} {image : Image dll} (dir : Exportdirectory image) (es : List Exportentry) : Prop where
  entries : Entries dir.entry dir.nnames.toNat es
  ordinal_lt : ∀ e ∈ es, e.ordinal.toNat < dir.naddrs.toNat
  named_fits : ∀ e ∈ es, e.ordinal.toNat + dir.ordbase.toNat < 0x100000000
  unseen_fits : ∀ k ∈ unseen es dir.naddrs.toNat, k + dir.ordbase.toNat < 0x100000000

/-- A line for each named entry, then one for each other index. -/
def Exportdirectory.listing {dll : S8} {image : Image dll} (dir : Exportdirectory image) (es : List Exportentry) : S8 :=
  S "EXPORTS\n" ++ (es.flatMap dir.line ++ (unseen es dir.naddrs.toNat).flatMap dir.noname)

theorem nameloop_prints {dll : S8} {image : Image dll} (dir : Exportdirectory image) :
    Prints oswrite
      (forloop dir.nnames.toNat (printnamed oswrite image.map dir.exports) (List.replicate dir.naddrs.toNat 0))
      (Done fun seen text => ∃ es, Entries dir.entry dir.nnames.toNat es ∧
        (∀ e ∈ es, e.ordinal.toNat < dir.naddrs.toNat) ∧
        (∀ e ∈ es, e.ordinal.toNat + dir.ordbase.toNat < 0x100000000) ∧ seen = marks es dir.naddrs.toNat ∧
        text = es.flatMap dir.line) := by
  refine forloop_prints (I := fun i seen acc => ∃ es, Entries dir.entry i es ∧
    (∀ e ∈ es, e.ordinal.toNat < dir.naddrs.toNat) ∧
    (∀ e ∈ es, e.ordinal.toNat + dir.ordbase.toNat < 0x100000000) ∧ seen = marks es dir.naddrs.toNat ∧
    acc = es.flatMap dir.line) ?_ ⟨[], .nil, nofun, nofun, ?_, rfl⟩
  · rintro i seen acc - ⟨es, hes, hlt, hfits, rfl, rfl⟩
    refine (printnamed_prints dir i _).mono fun r text h seen' hr => ?_
    obtain ⟨e, he, helt, hefits, rfl, rfl⟩ := h seen' hr
    refine ⟨es ++ [e], hes.snoc he, ?_, ?_, marks_snoc es e _, ?_⟩
    · exact List.forall_mem_append.mpr ⟨hlt, List.forall_mem_singleton.mpr helt⟩
    · exact List.forall_mem_append.mpr ⟨hfits, List.forall_mem_singleton.mpr hefits⟩
    · rw [List.flatMap_append, List.flatMap_singleton]
  · have hconst : marks [] dir.naddrs.toNat = (List.range dir.naddrs.toNat).map fun _ => 0 := rfl
    rw [hconst, List.map_const', List.length_range]

theorem indexloop_prints {dll : S8} {image : Image dll} (dir : Exportdirectory image) (es : List Exportentry) :
    Prints oswrite
      (forloop dir.naddrs.toNat (fun i _ => printunseen oswrite dir.ordbase (marks es dir.naddrs.toNat) i) ())
      (Done fun _ text => (∀ k ∈ unseen es dir.naddrs.toNat, k + dir.ordbase.toNat < 0x100000000) ∧
        text = (unseen es dir.naddrs.toNat).flatMap dir.noname) := by
  refine forloop_prints (I := fun i _ acc => (∀ k ∈ unseen es i, k + dir.ordbase.toNat < 0x100000000) ∧
    acc = (unseen es i).flatMap dir.noname) ?_ ⟨nofun, rfl⟩
  rintro i - acc hlt ⟨hfits, rfl⟩
  refine (printunseen_prints dir es (Int.ofNat_lt.mp hlt)).mono fun r text h u hr => ?_
  rw [unseen_succ]
  rcases h u hr with ⟨hseen, rfl⟩ | ⟨hseen, hifits, rfl⟩
  · rw [if_pos hseen, List.append_nil, List.append_nil]
    exact ⟨hfits, rfl⟩
  · rw [if_neg (by simp [hseen]), List.flatMap_append, List.flatMap_singleton]
    exact ⟨List.forall_mem_append.mpr ⟨hfits, List.forall_mem_singleton.mpr hifits⟩, rfl⟩

/-! ## The directory -/

theorem toi32_toNat {x : UInt32} (h : ¬ toi32 x < 0) : x.toNat < 0x80000000 ∧ toi32 x = x.toNat := by
  have hx := x.toNat_lt
  unfold toi32 at h ⊢
  split
  · exact ⟨‹_›, rfl⟩
  · rw [if_neg ‹_›] at h
    omega

theorem listexports_prints {dll : S8} (image : Image dll) (scratch : Arena) {off len : UInt32}
    (hoff : image.directory 96 = some off) (hlen : image.directory 100 = some len) :
    Prints oswrite (listexports oswrite image.map scratch (image.mem off) off (off + len)) (Done fun _ text =>
      ∃ dir : Exportdirectory image, dir.len = len ∧ ∃ es, Listed dir es ∧ text = dir.listing es) := by
  refine .done_put ?_
  refine .silent_bind (readu32_silent (n := 16) rfl) fun ordbase hordbase => ?_
  refine .silent_bind ((readu32_silent (n := 20) rfl).map
    (R := fun v => ∃ n, v = toi32 n ∧ u32at (image.mem off) 20 = some n)
    fun n hn => ⟨n, rfl, hn⟩) fun naddrs hnaddrs => ?_
  refine .silent_bind ((readu32_silent (n := 24) rfl).map
    (R := fun v => ∃ n, v = toi32 n ∧ u32at (image.mem off) 24 = some n)
    fun n hn => ⟨n, rfl, hn⟩) fun nnames hnnames => ?_
  obtain ⟨naddrs, rfl, hnaddrs⟩ := hnaddrs
  obtain ⟨nnames, rfl, hnnames⟩ := hnnames
  refine .silent_bind check_silent fun _ hcounts => .silent_bind alloc_silent fun _ _ => ?_
  refine .silent_bind (readu32_silent (n := 28) rfl) fun addrs haddrs => ?_
  rw [image.loadrva_eq, pure_bind]
  refine .silent_bind (readu32_silent (n := 32) rfl) fun names hnames => ?_
  rw [image.loadrva_eq, pure_bind]
  refine .silent_bind (readu32_silent (n := 36) rfl) fun ordinals hordinals => ?_
  rw [image.loadrva_eq, pure_bind]
  obtain ⟨hn, hm⟩ := not_or.mp hcounts
  obtain ⟨hnlt, hneq⟩ := toi32_toNat hn
  obtain ⟨hmlt, hmeq⟩ := toi32_toNat hm
  rw [hneq, hmeq]
  let dir : Exportdirectory image :=
    { off, len, ordbase, naddrs, nnames, addrs, names, ordinals
      off_at := hoff
      len_at := hlen
      ordbase_at := hordbase
      naddrs_at := hnaddrs
      nnames_at := hnnames
      addrs_at := haddrs
      names_at := hnames
      ordinals_at := hordinals
      naddrs_lt := hnlt
      nnames_lt := hmlt }
  refine (nameloop_prints dir).done_bind fun seen text h => ?_
  obtain ⟨es, hes, hlt, hfits, rfl, rfl⟩ := h
  refine (indexloop_prints dir es).mono fun r text h u hr => ?_
  obtain ⟨hunseen, rfl⟩ := h u hr
  exact ⟨dir, rfl, es, ⟨hes, hlt, hfits, hunseen⟩, rfl⟩

/-- What the export directory of an image is printed as. -/
def Exported (conf : Config) {dll : S8} (image : Image dll) (text : S8) : Prop :=
  ∃ len, image.directory 100 = some len ∧
    ((conf.exports = true ∧ len ≠ 0 ∧
        ∃ dir : Exportdirectory image, dir.len = len ∧ ∃ es, Listed dir es ∧ text = dir.listing es) ∨
      (¬ (conf.exports = true ∧ len ≠ 0) ∧ text = []))

theorem processexports_prints (conf : Config) {dll : S8} (image : Image dll) (scratch : Arena) :
    Prints oswrite (processexports oswrite conf image.map scratch image.pe image.type)
      (Done fun _ => Exported conf image) := by
  refine .silent_bind (readu32_silent (image.entryplace_eq 96)) fun off hoff => ?_
  refine .silent_bind (readu32_silent (image.entryplace_eq 100)) fun len hlen => ?_
  refine .silent_bind checkadd_silent fun edataend hend => ?_
  obtain ⟨rfl, -⟩ := hend
  rw [image.loadrva_eq, pure_bind]
  refine Says.ite (fun hc => ?_) fun hc => .done_pure ⟨len, hlen, .inr ⟨hc, rfl⟩⟩
  exact (listexports_prints image scratch hoff hlen).mono fun r text h u hr => ⟨len, hlen, .inl ⟨hc.1, hc.2, h u hr⟩⟩

theorem processimports_prints (conf : Config) (map : List Region) (pe : Slice) (type : Petype) :
    Prints oswrite (processimports oswrite conf map pe type)
      (Done fun _ text => conf.imports = false → text = []) := by
  refine .silent_bind (readu32_any _ _) fun off _ => .silent_bind (readu32_any _ _) fun len _ => ?_
  refine .silent_bind (loadrva_silent map off) fun idata _ => Says.ite (fun hc => ?_) fun _ => .done_pure fun _ => rfl
  have hoff : conf.imports = false → False := fun h => Bool.noConfusion (h.symm.trans hc.1)
  have hany : Prints oswrite (listimports oswrite map type idata off >>= fun _ => pure ()) fun _ _ => True :=
    (listimports_any map type idata off).any_bind fun _ => .pure trivial
  exact hany.mono fun r text _ u _ h => (hoff h).elim

/-- The imports are printed as this. -/
def Imported (oswrite : List S8 → S8 → Bool) (conf : Config) {dll : S8} (image : Image dll) (text : S8) : Prop :=
  (conf.imports = false → text = []) ∧
    ∀ out, (processimports oswrite conf image.map image.pe image.type).run out = (.ok (), prints8 oswrite out text)

/-- What an image that is processed to its end is printed as: its exports, then its
    imports. -/
theorem processpe_exports (conf : Config) (scratch : Arena) (dll : S8) :
    Prints oswrite (processpe oswrite conf scratch dll) (Done fun _ text =>
      ∃ (image : Image dll) (exports imports : S8), Exported conf image exports ∧ text = exports ++ imports ∧
        (∃ scratch', ∀ out, (processexports oswrite conf image.map scratch' image.pe image.type).run out =
          (.ok (), prints8 oswrite out exports)) ∧ Imported oswrite conf image imports) := by
  refine processpe_prints conf scratch dll (Q := fun image text => ∃ exports imports, Exported conf image exports ∧
    text = exports ++ imports ∧ (∃ scratch', ∀ out,
      (processexports oswrite conf image.map scratch' image.pe image.type).run out =
        (.ok (), prints8 oswrite out exports)) ∧ Imported oswrite conf image imports)
    fun image scratch' => ?_
  refine Says.done_bind (Q := fun _ exports => Exported conf image exports ∧ ∀ out,
      (processexports oswrite conf image.map scratch' image.pe image.type).run out =
        (.ok (), prints8 oswrite out exports))
    ?_ fun _ exports h => ?_
  · exact (processexports_prints conf image scratch').self.mono fun r text h u hr => ⟨h.1 u hr, fun out => hr ▸ h.2 out⟩
  · refine (processimports_prints conf image.map image.pe image.type).self.mono fun r imports himports u hr => ?_
    exact ⟨exports, imports, h.1, rfl, ⟨scratch', h.2⟩, himports.1 u hr, fun out => hr ▸ himports.2 out⟩

/-! ## A directory that can be listed is listed -/

section

variable {dll : S8} {image : Image dll} (dir : Exportdirectory image)

theorem printunseen_exact {es : List Exportentry} {i : Nat} (hi : i < dir.naddrs.toNat)
    (hfits : refers es i = false → i + dir.ordbase.toNat < 0x100000000) :
    printunseen oswrite dir.ordbase (marks es dir.naddrs.toNat) i =
      print oswrite (if refers es i then [] else dir.noname i) := by
  have hsmall := dir.naddrs_lt
  have hofInt := toNat_ofInt (show i < 0x100000000 by omega)
  rw [printunseen_marks hi]
  cases hr : refers es i with
  | true => exact print_nil.symm
  | false =>
    have hlt : (UInt32.ofInt i).toNat + dir.ordbase.toNat < 0x100000000 := by
      rw [hofInt]
      exact hfits hr
    have hadd : (UInt32.ofInt i + dir.ordbase).toNat = i + dir.ordbase.toNat := by
      rw [UInt32.toNat_add, Nat.mod_eq_of_lt hlt, hofInt]
    rw [if_neg nofun, checkadd_pure hlt, pure_bind, printu32_eq, hadd, print_print, print_print]
    rfl

theorem flatMap_unseen {es : List Exportentry} (n : Nat) :
    ((List.range n).flatMap fun k => if refers es k then [] else dir.noname k) = (unseen es n).flatMap dir.noname := by
  induction n with
  | zero => rfl
  | succ n ih =>
    rw [List.range_succ, List.flatMap_append, ih, unseen_succ, List.flatMap_append, List.flatMap_singleton]
    cases refers es n
    · simp only [Bool.false_eq_true, if_false, List.flatMap_singleton]
    · simp only [if_true, List.flatMap_nil]

theorem mem_unseen {es : List Exportentry} {n k : Nat} : k ∈ unseen es n ↔ k < n ∧ refers es k = false := by
  rw [unseen, List.mem_filter, List.mem_range, Bool.not_eq_true']

theorem indexloop_exact {es : List Exportentry} (h : Listed dir es) :
    forloop dir.naddrs.toNat (fun i _ => printunseen oswrite dir.ordbase (marks es dir.naddrs.toNat) i) () =
      print oswrite ((unseen es dir.naddrs.toNat).flatMap dir.noname) := by
  have hn := dir.naddrs_lt
  have hloop := forloop_exact (fun i _ => printunseen oswrite dir.ordbase (marks es dir.naddrs.toNat) i)
    (l := List.range dir.naddrs.toNat) List.length_range (by omega) (o := oswrite) (u := fun _ => ())
    (w := fun k => if refers es k then [] else dir.noname k) ?_
  · rw [flatMap_unseen] at hloop
    exact hloop
  · intro i hi
    rw [List.length_range] at hi
    rw [printunseen_exact dir hi fun hr => h.unseen_fits i (mem_unseen.mpr ⟨hi, hr⟩), List.getElem_range]
    rfl

variable (hdll : dll.length ≤ 0x1c000000)
include hdll

theorem printnamed_exact {i : Nat} {seen : S8} {e : Exportentry} (he : dir.entry i = some e)
    (hlt : e.ordinal.toNat < dir.naddrs.toNat) (hseen : seen.length = dir.naddrs.toNat)
    (hfits : e.ordinal.toNat + dir.ordbase.toNat < 0x100000000) :
    printnamed oswrite image.map dir.exports i seen = (do
      print oswrite (dir.line e)
      pure (seen.set e.ordinal.toNat 1)) := by
  obtain ⟨ordinal, hordinal, he⟩ := Option.bind_eq_some_iff.mp he
  obtain ⟨addr, haddr, he⟩ := Option.bind_eq_some_iff.mp he
  obtain ⟨name, hname, he⟩ := Option.bind_eq_some_iff.mp he
  obtain rfl : (⟨ordinal, addr, name⟩ : Exportentry) = e := Option.some.inj he
  have hsmall := u32at_le hname
  have hsmall' := image.mem_len dir.names
  have hord := ordinal.toNat_lt
  have r16 : readu16 dir.exports.ordinals ((i : Int) * 2) = pure ordinal := readu16_pure (by omega) hordinal
  have r32 : readu32 dir.exports.addrs ((ordinal.toNat : Int) * 4) = pure addr := readu32_pure (by omega) haddr
  have rname : readu32 dir.exports.names ((i : Int) * 4) = pure name := readu32_pure (by omega) hname
  have hcheck : check (dir.exports.naddrs ≤ ordinal.toNat) "invalid export ordinal" = pure () := by
    apply if_neg
    show ¬ (dir.naddrs.toNat : Int) ≤ ordinal.toNat
    exact Int.not_le.mpr (Int.ofNat_lt.mpr hlt)
  have hstore : store seen ordinal.toNat 1 = pure (seen.set ordinal.toNat 1) := if_pos (by rw [hseen]; exact hlt)
  have hsum : ordinal.toUInt32.toNat = ordinal.toNat := UInt16.toNat_toUInt32 ordinal
  have hadd : checkadd ordinal.toUInt32 dir.exports.ordbase = pure (ordinal.toUInt32 + dir.ordbase) :=
    checkadd_pure (by rwa [hsum])
  have hend : (ordinal.toUInt32 + dir.ordbase).toNat = ordinal.toNat + dir.ordbase.toNat := by
    rw [UInt32.toNat_add, hsum, Nat.mod_eq_of_lt hfits]
  unfold printnamed
  rw [i32_eq (by omega), pure_bind, r16, pure_bind, hcheck, pure_bind, hstore, pure_bind, i32_eq (by omega), pure_bind,
    r32, pure_bind, forwarder_eq, pure_bind]
  simp only [hadd, pure_bind, printu32_eq, hend,
    i32_eq (show -0x80000000 ≤ (i : Int) * 4 ∧ (i : Int) * 4 < 0x80000000 by omega), rname,
    image.loadrva_eq, map_pure, printname_eq, printmodule_eq, print_bind_print]
  rfl

theorem nameloop_exact {es : List Exportentry} (h : Listed dir es) :
    forloop dir.nnames.toNat (printnamed oswrite image.map dir.exports) (marks [] dir.naddrs.toNat) = (do
      print oswrite (es.flatMap dir.line)
      pure (marks es dir.naddrs.toNat)) := by
  have hn := dir.nnames_lt
  have hloop := forloop_exact (printnamed oswrite image.map dir.exports) (l := es) h.entries.length (by omega)
    (o := oswrite)
    (u := fun i => marks (es.take i) dir.naddrs.toNat) (w := dir.line) ?_
  · rw [← h.entries.length, List.take_length, h.entries.length] at hloop
    exact hloop
  · intro i hi
    have hmem := List.getElem_mem hi
    rw [printnamed_exact dir hdll (h.entries.entry i hi) (h.ordinal_lt _ hmem) (length_marks _ _) (h.named_fits _ hmem),
      marks_snoc, List.take_append_getElem hi]

/-- With room for the marks, a directory whose entries are all there is listed to its end. -/
theorem listexports_exact {es : List Exportentry} (h : Listed dir es) {scratch : Arena}
    (hroom : ∃ a, alloc scratch dir.naddrs.toNat 1 1 = pure a) :
    listexports oswrite image.map scratch (image.mem dir.off) dir.off (dir.off + dir.len) =
      print oswrite (dir.listing es) := by
  obtain ⟨a, hroom⟩ := hroom
  have hn := dir.naddrs_lt
  have hm := dir.nnames_lt
  have hi32 : ∀ {x : UInt32}, x.toNat < 0x80000000 → toi32 x = x.toNat := fun hx => if_pos hx
  have hcheck : check ((dir.naddrs.toNat : Int) < 0 ∨ (dir.nnames.toNat : Int) < 0) "invalid export count" = pure () :=
    if_neg (by omega)
  have rbase : readu32 (image.mem dir.off) (4 * 4) = pure dir.ordbase := readu32_pure (n := 16) rfl dir.ordbase_at
  have rnaddrs : readu32 (image.mem dir.off) (5 * 4) = pure dir.naddrs := readu32_pure (n := 20) rfl dir.naddrs_at
  have rnnames : readu32 (image.mem dir.off) (6 * 4) = pure dir.nnames := readu32_pure (n := 24) rfl dir.nnames_at
  have raddrs : readu32 (image.mem dir.off) (7 * 4) = pure dir.addrs := readu32_pure (n := 28) rfl dir.addrs_at
  have rnames : readu32 (image.mem dir.off) (8 * 4) = pure dir.names := readu32_pure (n := 32) rfl dir.names_at
  have rordinals : readu32 (image.mem dir.off) (9 * 4) = pure dir.ordinals := readu32_pure (n := 36) rfl dir.ordinals_at
  have hmarks : List.replicate dir.naddrs.toNat 0 = marks [] dir.naddrs.toNat := by
    have hconst : marks [] dir.naddrs.toNat = (List.range dir.naddrs.toNat).map fun _ => 0 := rfl
    rw [hconst, List.map_const', List.length_range]
  unfold listexports
  simp only [rbase, rnaddrs, rnnames, raddrs, rnames, rordinals, map_pure, pure_bind, hi32 hn, hi32 hm, hcheck, hroom,
    image.loadrva_eq]
  rw [Int.toNat_natCast, hmarks]
  show (do
    print oswrite (S "EXPORTS\n")
    let seen ← forloop dir.nnames.toNat (printnamed oswrite image.map dir.exports) (marks [] dir.naddrs.toNat)
    forloop dir.naddrs.toNat (fun i _ => printunseen oswrite dir.ordbase seen i) ()) = _
  rw [nameloop_exact dir hdll h, bind_assoc]
  simp only [pure_bind]
  rw [indexloop_exact dir h, print_print, print_print]
  rfl

/-- An image whose export directory is empty, or not asked for, has none listed. -/
theorem processexports_exact (conf : Config) (hexp : conf.exports = true) (hlen : dir.len ≠ 0)
    (hfits : dir.off.toNat + dir.len.toNat < 0x100000000) {es : List Exportentry} (h : Listed dir es) {scratch : Arena}
    (hroom : ∃ a, alloc scratch dir.naddrs.toNat 1 1 = pure a) :
    processexports oswrite conf image.map scratch image.pe image.type = print oswrite (dir.listing es) := by
  have roff : readu32 image.pe (directory image.type 96) = pure dir.off :=
    readu32_pure (image.entryplace_eq 96) dir.off_at
  have rlen : readu32 image.pe (directory image.type 100) = pure dir.len :=
    readu32_pure (image.entryplace_eq 100) dir.len_at
  unfold processexports
  rw [roff, pure_bind, rlen, pure_bind, checkadd_pure hfits, pure_bind, image.loadrva_eq, pure_bind,
    if_pos ⟨hexp, hlen⟩]
  exact listexports_exact dir hdll h hroom

end

/-! ## Every index appears -/

theorem refers_iff {es : List Exportentry} {k : Nat} : refers es k = true ↔ ∃ e ∈ es, e.ordinal.toNat = k := by
  simp only [refers, List.any_eq_true, beq_iff_eq]

/-- For every image that is processed to its end with its exports asked for: what is printed
    is what its exports are printed as, then what its imports are. Of a directory that is
    not empty the exports are a line for each entry of the name pointer table, in order, then
    one for exactly the indices that no entry refers to, in ascending order, and no more. -/
theorem exports_listed (oswrite : List S8 → S8 → Bool) (conf : Config) (scratch : Arena) (dll : S8) (out b : U8buf)
    (hexp : conf.exports = true) (h : (processpe oswrite conf scratch dll).run out = (.ok (), b)) :
    ∃ (image : Image dll) (len : UInt32) (exports imports : S8), image.directory 100 = some len ∧
      b = prints8 oswrite out (exports ++ imports) ∧
      (∃ scratch', ∀ out, (processexports oswrite conf image.map scratch' image.pe image.type).run out =
        (.ok (), prints8 oswrite out exports)) ∧
      (conf.imports = false → imports = []) ∧
      (∀ out, (processimports oswrite conf image.map image.pe image.type).run out =
        (.ok (), prints8 oswrite out imports)) ∧
      (len = 0 → exports = []) ∧
      (len ≠ 0 → ∃ (dir : Exportdirectory image) (es : List Exportentry), dir.len = len ∧ Listed dir es ∧
        exports = S "EXPORTS\n" ++ (es.flatMap dir.line ++ (unseen es dir.naddrs.toNat).flatMap dir.noname) ∧
        (∀ k, k ∈ unseen es dir.naddrs.toNat ↔ k < dir.naddrs.toNat ∧ ∀ e ∈ es, e.ordinal.toNat ≠ k) ∧
        (unseen es dir.naddrs.toNat).Pairwise (· < ·)) := by
  obtain ⟨text, hdone, hrun⟩ := (processpe_exports conf scratch dll).of_run h
  obtain ⟨image, exports, imports, ⟨len, hlen, hexported⟩, rfl, hscratch, hnone, himports⟩ := hdone () rfl
  refine ⟨image, len, exports, imports, hlen, congrArg Prod.snd (h.symm.trans (hrun out)), hscratch, hnone, himports,
    fun hzero => ?_, fun hne => ?_⟩
  · rcases hexported with ⟨-, hne, -⟩ | ⟨-, hnil⟩
    · exact absurd hzero hne
    · exact hnil
  · rcases hexported with ⟨-, -, dir, hdir, es, hlisted, rfl⟩ | ⟨hnot, -⟩
    · refine ⟨dir, es, hdir, hlisted, rfl, fun k => ?_, ?_⟩
      · rw [mem_unseen, ← Bool.not_eq_true, refers_iff]
        simp only [not_exists, not_and]
      · exact List.pairwise_lt_range.filter _
    · exact absurd ⟨hexp, hne⟩ hnot

set_option maxRecDepth 4000 in
theorem twoexports_mapped : loadsections 1 (some twoexports) (some (twoexports.drop 200)) =
    pure [⟨0x1000, 0x1038, some (fileslice twoexports 240 296)⟩] := loadsections_one rfl

set_option maxRecDepth 4000 in
def twoexports_image : Image twoexports where
  peoff := 0x40
  nsections := 1
  hdrsize := 112
  type := .PE32
  map := [⟨0x1000, 0x1038, some (fileslice twoexports 240 296)⟩]
  peoff_at := rfl
  peoff_le := by decide
  signature := rfl
  nsections_at := rfl
  hdrsize_at := rfl
  magic_at := rfl
  hdrsize_le := by decide
  mapped := twoexports_mapped

def twoexports_directory : Exportdirectory twoexports_image where
  off := 0x1000
  len := 56
  ordbase := 5
  naddrs := 2
  nnames := 1
  addrs := 0x1028
  names := 0x1030
  ordinals := 0x1034
  off_at := rfl
  len_at := rfl
  ordbase_at := rfl
  naddrs_at := rfl
  nnames_at := rfl
  addrs_at := rfl
  names_at := rfl
  ordinals_at := rfl
  naddrs_lt := by decide
  nnames_lt := by decide

theorem twoexports_listed : Listed twoexports_directory [⟨1, 0x2000, 0x1036⟩] where
  entries := ⟨rfl, fun i hi => by obtain rfl := Nat.lt_one_iff.mp hi; rfl⟩
  ordinal_lt := List.forall_mem_singleton.mpr (by decide)
  named_fits := List.forall_mem_singleton.mpr (by decide)
  unseen_fits := by decide

set_option maxRecDepth 4000 in
/-- With room for the section and for the marks. -/
theorem processpe_twoexports (oswrite : List S8 → S8 → Bool) (out : U8buf) {scratch a : Arena}
    (hscratch : alloc scratch 1 24 8 = pure a) (hroom : ∃ a', alloc a 2 1 1 = pure a') :
    (processpe oswrite ⟨true, false⟩ scratch twoexports).run out =
      (.ok (), prints8 oswrite out (twoexports_directory.listing [⟨1, 0x2000, 0x1036⟩])) := by
  have hscratch : alloc scratch (loadlen twoexports_image.nsections) 24 8 = pure a := hscratch
  rw [processpe_image _ _ twoexports_image, hscratch, pure_bind,
    processexports_exact twoexports_directory (by decide) ⟨true, false⟩ rfl (by decide) (by decide) twoexports_listed
      hroom,
    processimports_off ⟨true, false⟩ twoexports_image (m := 0) (n := 0) rfl rfl (by decide)]
  rfl

theorem processpe_twoexports_page : (processpe (fun _ _ => true) ⟨true, false⟩ page twoexports).run newu8buf =
    (.ok (), prints8 (fun _ _ => true) newu8buf (twoexports_directory.listing [⟨1, 0x2000, 0x1036⟩])) :=
  processpe_twoexports _ _ (a := ⟨0x1018, 0x2000, by decide, by decide⟩) rfl
    ⟨⟨0x101a, 0x2000, by decide, by decide⟩, rfl⟩

/-- Without the imports the text is the listing of the directory. -/
theorem exports_listed_twoexports : ∃ (image : Image twoexports) (dir : Exportdirectory image) (es : List Exportentry),
    Listed dir es ∧ dir.listing es = twoexports_directory.listing [⟨1, 0x2000, 0x1036⟩] := by
  obtain ⟨image, len, exports, imports, -, htext, -, hnone, -, hempty, h⟩ :=
    exports_listed (fun _ _ => true) ⟨true, false⟩ page twoexports newu8buf _ rfl processpe_twoexports_page
  rw [hnone rfl, List.append_nil] at htext
  have hexports : exports = twoexports_directory.listing [⟨1, 0x2000, 0x1036⟩] := (prints8_inj htext).symm
  have hlen : len ≠ 0 := by
    intro hlen
    rw [hempty hlen] at hexports
    cases hexports
  obtain ⟨dir, es, -, hlisted, hlines, -, -⟩ := h hlen
  exact ⟨image, dir, es, hlisted, hlines.symm.trans hexports⟩

end GnuWindows.Peports
