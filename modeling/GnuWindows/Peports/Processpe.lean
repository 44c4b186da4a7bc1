/-
  GnuWindows.Peports.Processpe — the export and import listing of an image (`processpe`).

  Every loop is one over the state that its turns change: a counter, and what is built up.
  The counter of a `for` with a bound comes closer to it; the two without one end because
  a turn that goes on has read that far into a slice.
-/
import GnuWindows.Peports.Gives

namespace GnuWindows.Peports

open GnuWindows.Lib.Hoare (Comp Nearer)
open GnuWindows.PkgConfig (S8 S)

structure Config where
  exports : Bool
  imports : Bool

/-- A section mapped into the address space. -/
structure Region where
  beg : UInt32
  fin : UInt32
  mem : Slice

inductive Petype where
  | PE32
  | PE64
  deriving DecidableEq

/-- Throw unless the condition is false. -/
def check (c : Prop) [Decidable c] (reason : String) : Pe Unit := if c then throws reason else pure ()

/-- `array[i] = b`. -/
def store (array : S8) (i : Nat) (b : UInt8) : Pe S8 :=
  if i < array.length then pure (array.set i b) else throw .outofbounds

/-- The bytes mapped from an address on. -/
def loadrva (map : List Region) (vaddr : UInt32) : Pe Slice :=
  match map.find? fun s => s.beg ≤ vaddr && vaddr < s.fin with
  | none => pure none
  | some s => slice3 s.mem (vaddr - s.beg).toNat s.mem.len

/-! ## Loops -/

/-- A turn of `for (i32 i = 0; i < n; i++)`. -/
def forturn {τ : Type} (n : Int) (body : Int → τ → Pe τ) (t : Int × τ) : Pe (ForInStep (Int × τ)) :=
  if t.1 < n then do
    let next ← body t.1 t.2
    let i ← i32 (t.1 + 1)
    pure (.yield (i, next))
  else pure (.done t)

theorem forturn_nearer {τ : Type} (n : Int) (body : Int → τ → Pe τ) :
    Nearer (forturn n body) fun t => (n - t.1).toNat := by
  apply Gives.nearer
  intro t
  apply Gives.ite
  · intro hlt
    refine Gives.any.bind fun next _ => ?_
    refine (i32_gives (Or.inl trivial)).bind fun i hi => .pure ?_
    intro t' h
    cases h
    show (n - i).toNat < (n - t.1).toNat
    omega
  · exact fun _ => .pure nofun

def forloop {τ : Type} (n : Int) (body : Int → τ → Pe τ) (start : τ) : Pe τ :=
  Prod.snd <$> Comp.loop (forturn n body) _ (forturn_nearer n body) (0, start)

/-! ## The sections -/

structure Sectionheader where
  vsize : UInt32
  vaddr : UInt32
  rsize : UInt32
  raddr : UInt32

def readsection (sections : Slice) (i : Int) : Pe Sectionheader := do
  let vsize ← readu32 sections (← i32 ((← i32 (40 * i)) + 8))
  let vaddr ← readu32 sections (← i32 ((← i32 (40 * i)) + 12))
  let rsize ← readu32 sections (← i32 ((← i32 (40 * i)) + 16))
  let raddr ← readu32 sections (← i32 ((← i32 (40 * i)) + 20))
  pure ⟨vsize, vaddr, rsize, raddr⟩

/-- Map a section. One that is larger than its data is discarded, one that is smaller is
    cut off. -/
def mapsection (loadlen : Nat) (dll : Slice) (h : Sectionheader) (map : List Region) : Pe (List Region) :=
  -- stored to `map.regions[map.len]`
  if map.length < loadlen then do
    let fin ← checkadd h.vaddr h.vsize
    check (∃ prev ∈ map.getLast?, h.vaddr ≤ prev.beg ∨ h.vaddr < prev.fin) "invalid section order"
    let rend ← checkadd h.raddr h.rsize
    let mem ← slice3 dll h.raddr.toNat rend.toNat
    if h.rsize < h.vsize then pure map
    else if h.vsize < h.rsize then pure (map ++ [⟨h.vaddr, fin, mem.map (·.take h.vsize.toNat)⟩])
    else pure (map ++ [⟨h.vaddr, fin, mem⟩])
  else throw .outofbounds

def loadsections (loadlen : Nat) (dll sections : Slice) : Pe (List Region) :=
  forloop loadlen (fun i map => do mapsection loadlen dll (← readsection sections i) map) []

variable (oswrite : List S8 → S8 → Bool)

/-! ## Exports -/

/-- The export directory as the loops over it use it. -/
structure Exports where
  edataoff : UInt32
  edataend : UInt32
  ordbase : UInt32
  naddrs : Int
  nnames : Int
  addrs : Slice
  names : Slice
  ordinals : Slice

/-- An address inside of the directory is that of a forwarder's name. -/
def forwarder (map : List Region) (x : Exports) (addr : UInt32) : Pe Slice :=
  if x.edataoff ≤ addr ∧ addr < x.edataend then nullterm <$> loadrva map addr else pure none

def printmodule (module : Slice) : Pe Unit :=
  if module.isSome then do
    print oswrite (S " <")
    printname oswrite module
    print oswrite (S ">")
  else pure ()

/-- Print a name's entry, and mark its ordinal as seen. -/
def printnamed (map : List Region) (x : Exports) (i : Int) (seen : S8) : Pe S8 := do
  let ordinal ← readu16 x.ordinals (← i32 (i * 2))
  check (x.naddrs ≤ ordinal.toNat) "invalid export ordinal"
  let seen ← store seen ordinal.toNat 1
  let addr ← readu32 x.addrs (← i32 (ordinal.toNat * 4))
  let module ← forwarder map x addr
  print oswrite (S "\t")
  let ordend ← checkadd ordinal.toUInt32 x.ordbase
  printu32 oswrite ordend
  print oswrite (S "\t")
  let off ← readu32 x.names (← i32 (i * 4))
  let name ← nullterm <$> loadrva map off
  printname oswrite name
  printmodule oswrite module
  print oswrite (S "\n")
  pure seen

/-- Print an ordinal that was not seen. -/
def printunseen (ordbase : UInt32) (seen : S8) (i : Int) : Pe Unit := do
  let b ← load (some seen) i
  if b = 0 then do
    print oswrite (S "\t")
    let ordend ← checkadd (UInt32.ofInt i) ordbase
    printu32 oswrite ordend
    print oswrite (S "\t<NONAME>\n")
  else pure ()

def listexports (map : List Region) (scratch : Arena) (edata : Slice) (edataoff edataend : UInt32) : Pe Unit := do
  print oswrite (S "EXPORTS\n")
  let ordbase ← readu32 edata (4 * 4)
  let naddrs ← toi32 <$> readu32 edata (5 * 4)
  let nnames ← toi32 <$> readu32 edata (6 * 4)
  check (naddrs < 0 ∨ nnames < 0) "invalid export count"
  let _ ← alloc scratch naddrs 1 1
  let addrs ← loadrva map (← readu32 edata (7 * 4))
  let names ← loadrva map (← readu32 edata (8 * 4))
  let ordinals ← loadrva map (← readu32 edata (9 * 4))
  let x : Exports := ⟨edataoff, edataend, ordbase, naddrs, nnames, addrs, names, ordinals⟩
  let seen ← forloop nnames (printnamed oswrite map x) (List.replicate naddrs.toNat 0)
  forloop naddrs (fun i _ => printunseen oswrite ordbase seen i) ()

/-! ## Imports -/

/-- The low 32 bits of an entry, or both halves of a 64-bit one. -/
def lookupaddr (type : Petype) (table : Slice) (j : Int) : Pe UInt32 :=
  match type with
  | .PE32 => do readu32 table (← i32 (j * 4))
  | .PE64 => do
    let high ← readu32 table (← i32 ((← i32 (j * 8)) + 4))
    let low ← readu32 table (← i32 ((← i32 (j * 8)) + 0))
    pure (high ||| low)

def printentry (map : List Region) (addr : UInt32) : Pe Unit :=
  if addr >>> 31 ≠ 0 then do
    printu32 oswrite (addr &&& 0x7fffffff)
    print oswrite (S "\t<NONAME>")
  else do
    let entry ← loadrva map addr
    let hint ← readu16 entry 0
    printu32 oswrite hint.toUInt32
    print oswrite (S "\t")
    let name ← nullterm <$> slice2 entry 2
    printname oswrite name

/-- A turn of the loop over a lookup table. -/
def lookupturn (map : List Region) (type : Petype) (table : Slice) (j : Int) : Pe (ForInStep Int) := do
  let addr ← lookupaddr type table j
  if addr = 0 then pure (.done j)
  else do
    print oswrite (S "\t")
    let _ ← printentry oswrite map addr
    print oswrite (S "\n")
    let j ← i32 (j + 1)
    pure (.yield j)

/-- What was read lies in the table. -/
theorem lookupaddr_gives (type : Petype) (table : Slice) (j : Int) :
    Gives (fun _ => True) (lookupaddr type table j) fun _ => 4 * j < table.len := by
  have hlen := table.len_nonneg
  cases type with
  | PE32 =>
    refine (i32_gives (Or.inl trivial)).bind fun off hoff => ?_
    exact (readu32_gives (fun _ _ => trivial) (Or.inl trivial)).mono fun _ h => by omega
  | PE64 =>
    refine (i32_gives (Or.inl trivial)).bind fun off hoff => ?_
    refine (i32_gives (Or.inl trivial)).bind fun off' hoff' => ?_
    refine (readu32_gives (fun _ _ => trivial) (Or.inl trivial)).bind fun high hhigh => ?_
    refine Gives.any.bind fun _ _ => Gives.any.bind fun _ _ => Gives.any.bind fun low _ => .pure ?_
    omega

theorem lookupturn_nearer (map : List Region) (type : Petype) (table : Slice) :
    Nearer (lookupturn oswrite map type table) fun j => (table.len - 4 * j).toNat := by
  apply Gives.nearer
  intro j
  refine (lookupaddr_gives type table j).bind fun addr hread => ?_
  apply Gives.ite
  · exact fun _ => .pure nofun
  · intro _
    refine Gives.any.bind fun _ _ => Gives.any.bind fun _ _ => Gives.any.bind fun _ _ => ?_
    refine (i32_gives (Or.inl trivial)).bind fun j' hj => .pure ?_
    intro j'' h
    cases h
    show (table.len - 4 * j').toNat < (table.len - 4 * j).toNat
    omega

def listtable (map : List Region) (type : Petype) (table : Slice) : Pe Int :=
  Comp.loop (lookupturn oswrite map type table) _ (lookupturn_nearer oswrite map type table) 0

/-- A turn of the loop over the import directory; `firsttable` is the earliest lookup
    table. -/
def directoryturn (map : List Region) (type : Petype) (idata : Slice) (idataoff : UInt32) (t : Int × UInt32) :
    Pe (ForInStep (Int × UInt32)) := do
  let off ← i32 (t.1 * 20)
  if idataoff + UInt32.ofInt off = t.2 then pure (.done t)
  else do
    let tableoff ← readu32 idata (← i32 ((← i32 (t.1 * 20)) + 0))
    let nameoff ← readu32 idata (← i32 ((← i32 (t.1 * 20)) + 12))
    if tableoff = 0 ∨ nameoff = 0 then pure (.done t)
    else do
      let name ← nullterm <$> loadrva map nameoff
      if name.isNone then pure (.done t)
      else do
        printname oswrite name
        print oswrite (S "\n")
        let table ← loadrva map tableoff
        if table.isNone then pure (.done t)
        else do
          let _ ← listtable oswrite map type table
          let i ← i32 (t.1 + 1)
          pure (.yield (i, if t.2 < tableoff then t.2 else tableoff))

theorem directoryturn_nearer (map : List Region) (type : Petype) (idata : Slice) (idataoff : UInt32) :
    Nearer (directoryturn oswrite map type idata idataoff) fun t => (idata.len - 20 * t.1).toNat := by
  apply Gives.nearer
  intro t
  refine Gives.any.bind fun _ _ => Gives.ite (fun _ => .pure nofun) fun _ => ?_
  refine Gives.any.bind fun _ _ => Gives.any.bind fun _ _ => Gives.any.bind fun tableoff _ => ?_
  refine (i32_gives (Or.inl trivial)).bind fun off hoff => ?_
  refine (i32_gives (Or.inl trivial)).bind fun off' hoff' => ?_
  refine (readu32_gives (fun _ _ => trivial) (Or.inl trivial)).bind fun nameoff hread => ?_
  refine Gives.ite (fun _ => .pure nofun) fun _ => Gives.any.bind fun name _ => ?_
  refine Gives.ite (fun _ => .pure nofun) fun _ => Gives.any.bind fun _ _ => Gives.any.bind fun _ _ => ?_
  refine Gives.any.bind fun table _ => Gives.ite (fun _ => .pure nofun) fun _ => Gives.any.bind fun _ _ => ?_
  refine (i32_gives (Or.inl trivial)).bind fun i hi => .pure ?_
  intro t' h
  cases h
  show (idata.len - 20 * i).toNat < (idata.len - 20 * t.1).toNat
  omega

def listimports (map : List Region) (type : Petype) (idata : Slice) (idataoff : UInt32) : Pe (Int × UInt32) :=
  Comp.loop (directoryturn oswrite map type idata idataoff) _ (directoryturn_nearer oswrite map type idata idataoff)
    (0, 0xffffffff)

/-! ## The image -/

def petype (magic : UInt16) : Pe Petype :=
  if magic = 0x010b then pure .PE32 else if magic = 0x020b then pure .PE64 else throws "unknown PE magic"

/-- The place of a directory entry, which is 16 bytes later in a 64-bit image. -/
def directory (type : Petype) (off : Int) : Int := 24 + if type = .PE32 then off else off + 16

def processexports (conf : Config) (map : List Region) (scratch : Arena) (pe : Slice) (type : Petype) : Pe Unit := do
  let edataoff ← readu32 pe (directory type 96)
  let edatalen ← readu32 pe (directory type 100)
  let edataend ← checkadd edataoff edatalen
  let edata ← loadrva map edataoff
  if conf.exports ∧ edatalen ≠ 0 then listexports oswrite map scratch edata edataoff edataend else pure ()

def processimports (conf : Config) (map : List Region) (pe : Slice) (type : Petype) : Pe Unit := do
  let idataoff ← readu32 pe (directory type 104)
  let idatalen ← readu32 pe (directory type 108)
  let idata ← loadrva map idataoff
  if conf.imports ∧ idatalen ≠ 0 then (fun _ => ()) <$> listimports oswrite map type idata idataoff else pure ()

def processpe (conf : Config) (scratch : Arena) (dll : S8) : Pe Unit := do
  let peoff ← readu32 (some dll) 0x3c
  let pe ← slice2 (some dll) peoff.toNat
  let pehdr ← slice3 pe 0 4
  check (pehdr.getD [] ≠ [0x50, 0x45, 0, 0]) "not a PE file"
  let nsections ← readu16 pe (4 + 2)
  let hdrsize ← readu16 pe (4 + 16)
  let type ← petype (← readu16 pe (4 + 20))
  let loadlen := if 96 < nsections.toNat then 96 else nsections.toNat
  let scratch ← alloc scratch loadlen 24 8
  let sections ← slice2 pe (4 + 20 + hdrsize.toNat)
  let map ← loadsections loadlen (some dll) sections
  processexports oswrite conf map scratch pe type
  processimports oswrite conf map pe type

end GnuWindows.Peports
