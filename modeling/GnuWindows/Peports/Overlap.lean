/-
  GnuWindows.Peports.Overlap — the import directory and the tables that follow it.

  A linker may leave out the last entry of the directory, which then runs into the lookup
  tables. The walk keeps the earliest table it has met and stops at an entry that begins
  where this one does. An entry is 20 bytes, and a table may begin anywhere in them.

  Proved:
  - `directoryturn_eq`: a turn is the test, the read of the entry and what is made of it.
  - `walk_earliest`: the walk keeps the earliest of the tables it has met.
  - `tables_kept_iff`: no entry is read that has the start of such a table in it, exactly
    when at each entry with one the earliest table begins with the entry.
-/
import GnuWindows.Peports.ImportTable

namespace GnuWindows.Peports

open GnuWindows.Lib.Hoare (Comp Silent Triple)
open GnuWindows.PkgConfig (S8 S)

/-! ## A turn -/

/-- The two fields that are read of an entry. -/
def readentry (idata : Slice) (i : Int) : Pe (UInt32 × UInt32) := do
  let tableoff ← readu32 idata (← i32 ((← i32 (i * 20)) + 0))
  let nameoff ← readu32 idata (← i32 ((← i32 (i * 20)) + 12))
  pure (tableoff, nameoff)

/-- The test and the read; null when the walk stops. -/
def decodeentry (idata : Slice) (idataoff : UInt32) (t : Int × UInt32) : Pe (Option (UInt32 × UInt32)) := do
  let off ← i32 (t.1 * 20)
  if idataoff + UInt32.ofInt off = t.2 then pure none else some <$> readentry idata t.1

variable (oswrite : List S8 → S8 → Bool)

/-- What is made of an entry. -/
def listentry (map : List Region) (type : Petype) (t : Int × UInt32) (tableoff nameoff : UInt32) :
    Pe (ForInStep (Int × UInt32)) := do
  if tableoff = 0 ∨ nameoff = 0 then pure (.done t)
  else do
    let name ← nullterm <$> loadrva map nameoff
    if name.isNone then pure (.done t)
    else do
      printname oswrite name
      print oswrite (S "\n")
      let table ← loadrva map tableoff
      if table.isNone then pure (.done t)
      else do
        let _ ← listtable oswrite map type table
        let i ← i32 (t.1 + 1)
        pure (.yield (i, if t.2 < tableoff then t.2 else tableoff))

theorem directoryturn_eq (map : List Region) (type : Petype) (idata : Slice) (idataoff : UInt32) (t : Int × UInt32) :
    directoryturn oswrite map type idata idataoff t = (do
      match ← decodeentry idata idataoff t with
      | none => pure (.done t)
      | some entry => listentry oswrite map type t entry.1 entry.2) := by
  unfold directoryturn decodeentry
  rw [bind_assoc]
  refine congrArg _ (funext fun off => ?_)
  by_cases hstop : idataoff + UInt32.ofInt off = t.2
  · rw [if_pos hstop, if_pos hstop, pure_bind]
  · rw [if_neg hstop, if_neg hstop, readentry]
    simp only [listentry, map_eq_pure_bind, bind_assoc, pure_bind]

/-- A turn that goes on has met one table more. -/
theorem listentry_gives (map : List Region) (type : Petype) (t : Int × UInt32) (tableoff nameoff : UInt32) :
    Gives (fun _ => True) (listentry oswrite map type t tableoff nameoff) fun r => ∀ t', r = .yield t' →
      t' = (t.1 + 1, if t.2 < tableoff then t.2 else tableoff) := by
  refine Gives.ite (fun _ => .pure nofun) fun _ => Gives.any.bind fun name _ => ?_
  refine Gives.ite (fun _ => .pure nofun) fun _ => Gives.any.bind fun _ _ => Gives.any.bind fun _ _ => ?_
  refine Gives.any.bind fun table _ => Gives.ite (fun _ => .pure nofun) fun _ => Gives.any.bind fun _ _ => ?_
  refine (i32_gives (.inl trivial)).bind fun i hi => .pure ?_
  intro t' h
  cases h
  rw [hi]

theorem i32_range {x : Int} : Silent (i32 x) fun r => r = x ∧ -0x80000000 ≤ x ∧ x < 0x80000000 :=
  .ite (fun h => .pure ⟨rfl, h⟩) fun _ => .throw

/-- What the two fields are, and where they are read. -/
theorem readentry_silent (idata : Slice) (i : Nat) :
    Silent (readentry idata i) fun entry =>
      u32at idata (20 * i) = some entry.1 ∧ u32at idata (20 * i + 12) = some entry.2 ∧ 20 * i < 0x80000000 := by
  refine i32_range.bind fun off hoff => i32_silent.bind fun off' hoff' => ?_
  refine (readu32_silent (n := 20 * i) (by omega)).bind fun tableoff htable => ?_
  refine i32_silent.bind fun off₂ hoff₂ => i32_silent.bind fun off₂' hoff₂' => ?_
  exact (readu32_silent (n := 20 * i + 12) (by omega)).bind fun nameoff hname => .pure ⟨htable, hname, by omega⟩

/-! ## The walk -/

variable {dll : S8} (image : Image dll) (off : UInt32)

/-- The walk has come to entry `i` with the state `t`, and has printed something. -/
inductive Walk (start : U8buf) : Nat → Int × UInt32 → U8buf → Prop
  | start : Walk start 0 (0, 0xffffffff) start
  | turn {i : Nat} {t t' : Int × UInt32} {out out' : U8buf} : Walk start i t out →
      (directoryturn oswrite image.map image.type (image.mem off) off t).run out = (.ok (.yield t'), out') →
      Walk start (i + 1) t' out'

/-- A table met before entry `i`. -/
def Recorded (i : Nat) (table : UInt32) : Prop := ∃ j < i, u32at (image.mem off) (20 * j) = some table

/-- The place of an entry. -/
def entryrva (i : Nat) : Nat := off.toNat + 20 * i

/-- A table begins in the bytes of entry `i`. -/
def Within (i : Nat) (table : UInt32) : Prop := entryrva off i ≤ table.toNat ∧ table.toNat < entryrva off i + 20

variable {oswrite} {image} {off} {start : U8buf}

/-- The loop takes the turns of the walk, and ends with the one that stops or fails. -/
theorem listimports_walk {r : Except Fault (Int × UInt32)} {out : U8buf}
    (h : (listimports oswrite image.map image.type (image.mem off) off).run start = (r, out)) :
    ∃ i t out', Walk oswrite image off start i t out' ∧
      (directoryturn oswrite image.map image.type (image.mem off) off t).run out' = (r.map .done, out) := by
  have hloop := Triple.loop (h := directoryturn_nearer oswrite image.map image.type (image.mem off) off)
    (I := fun t s => ∃ i, Walk oswrite image off start i t s)
    (Q := fun t s => ∃ i t' out', Walk oswrite image off start i t' out' ∧
      (directoryturn oswrite image.map image.type (image.mem off) off t').run out' = (.ok (.done t), s))
    (E := fun e s => ∃ i t' out', Walk oswrite image off start i t' out' ∧
      (directoryturn oswrite image.map image.type (image.mem off) off t').run out' = (.error e, s))
    ?_ (0, 0xffffffff) start ⟨0, .start⟩
  · rw [show Comp.loop _ _ _ _ = listimports oswrite image.map image.type (image.mem off) off from rfl, h] at hloop
    cases r with
    | ok t => exact hloop
    | error e => exact hloop
  · rintro t s ⟨i, hwalk⟩
    cases hrun : (directoryturn oswrite image.map image.type (image.mem off) off t).run s with
    | mk r s' =>
      cases r with
      | error e => exact ⟨i, t, s, hwalk, hrun⟩
      | ok r =>
        cases r with
        | done t' => exact ⟨i, t, s, hwalk, hrun⟩
        | yield t' => exact ⟨i + 1, hwalk.turn hrun⟩

/-- What a turn that goes on has read. -/
theorem directoryturn_yield {i : Nat} {t t' : Int × UInt32} (ht : t.1 = i) {out out' : U8buf}
    (h : (directoryturn oswrite image.map image.type (image.mem off) off t).run out = (.ok (.yield t'), out')) :
    ∃ table, u32at (image.mem off) (20 * i) = some table ∧
      t' = (t.1 + 1, if t.2 < table then t.2 else table) := by
  have hdecode : Silent (decodeentry (image.mem off) off t) fun entry => ∀ e ∈ entry,
      u32at (image.mem off) (20 * i) = some e.1 := by
    refine i32_silent.bind fun _ _ => Silent.ite (fun _ => .pure nofun) fun _ => ?_
    rw [ht]
    refine (readentry_silent (image.mem off) i).map fun entry hentry e he => ?_
    obtain rfl : entry = e := Option.some.inj he
    exact hentry.1
  obtain ⟨r, hr, hrun⟩ := hdecode
  rw [directoryturn_eq, Comp.run_bind, hrun] at h
  cases r with
  | error e => cases h
  | ok entry =>
    cases entry with
    | none => cases h
    | some entry =>
      have hlist := (listentry_gives oswrite image.map image.type t entry.1 entry.2).outcome out trivial
      rw [show (listentry oswrite image.map image.type t entry.1 entry.2).run out = _ from h] at hlist
      exact ⟨entry.1, hr _ rfl entry rfl, hlist t' rfl⟩

/-- The walk counts the entries and keeps the earliest table. -/
structure Earliest (image : Image dll) (off : UInt32) (i : Nat) (t : Int × UInt32) : Prop where
  count : t.1 = i
  least : ∀ table, Recorded image off i table → t.2 ≤ table
  met : (i = 0 ∧ t.2 = 0xffffffff) ∨ Recorded image off i t.2

theorem walk_earliest {i : Nat} {t : Int × UInt32} {out : U8buf} (h : Walk oswrite image off start i t out) :
    Earliest image off i t := by
  induction h with
  | start => exact ⟨rfl, fun table hrec => by obtain ⟨j, hj, -⟩ := hrec; omega, .inl ⟨rfl, rfl⟩⟩
  | @turn i t t' out out' _ hrun ih =>
    obtain ⟨table, htable, rfl⟩ := directoryturn_yield ih.count hrun
    have hnew : Recorded image off (i + 1) table := ⟨i, Nat.lt_succ_self i, htable⟩
    have hold : ∀ x, Recorded image off i x → Recorded image off (i + 1) x := fun x ⟨j, hj, hx⟩ =>
      ⟨j, Nat.lt_succ_of_lt hj, hx⟩
    refine ⟨by rw [ih.count]; rfl, ?_, .inr ?_⟩
    · rintro x ⟨j, hj, hx⟩
      have hx' : x = table ∨ Recorded image off i x := by
        rcases Nat.lt_succ_iff_lt_or_eq.mp hj with hj | rfl
        · exact .inr ⟨j, hj, hx⟩
        · rw [hx] at htable
          exact .inl (Option.some.inj htable)
      simp only
      rcases hx' with rfl | hx'
      · split
        · rename_i hlt
          exact UInt32.le_of_lt hlt
        · exact UInt32.le_refl x
      · split
        · exact ih.least x hx'
        · rename_i hge
          exact UInt32.le_trans (UInt32.not_lt.mp hge) (ih.least x hx')
    · simp only
      split
      · rename_i hlt
        rcases ih.met with ⟨-, hmax⟩ | hmet
        · -- no table is behind the last address
          rw [hmax] at hlt
          exact absurd (UInt32.lt_iff_toNat_lt.mp hlt) (Nat.not_lt.mpr (Nat.le_of_lt_succ table.toNat_lt))
        · exact hold _ hmet
      · exact hnew

/-! ## Entries that are read -/

/-- The fields of entry `i` can be read. -/
def Readable (image : Image dll) (off : UInt32) (i : Nat) : Prop :=
  ∃ entry, readentry (image.mem off) i = pure entry

/-- The walk reads the entry it has come to. -/
def Decodes (image : Image dll) (off : UInt32) (t : Int × UInt32) : Prop :=
  ∃ entry, decodeentry (image.mem off) off t = pure (some entry)

/-- The place of an entry that can be read does not overflow. -/
theorem readable_place {i : Nat} (h : Readable image off i) :
    i32 ((i : Int) * 20) = pure ((20 * i : Nat) : Int) ∧
      (off + UInt32.ofInt ((20 * i : Nat) : Int)).toNat = entryrva off i := by
  obtain ⟨entry, hentry⟩ := h
  have hrun := congrArg (Comp.run · newu8buf) hentry
  obtain ⟨⟨-, hname, hlt⟩, -⟩ := (readentry_silent (image.mem off) i).of_run hrun
  obtain ⟨bytes, hbytes⟩ := mapped_of_u32at hname
  have hend := image.mem_end hbytes
  have hle := u32at_le hname
  rw [hbytes] at hle
  have hlen : Slice.len (some bytes) = bytes.length := rfl
  have hmul : (i : Int) * 20 = ((20 * i : Nat) : Int) := by omega
  refine ⟨by rw [hmul, i32_eq (by omega)], ?_⟩
  rw [UInt32.toNat_add, toNat_ofInt (by omega), entryrva]
  omega

theorem decodeentry_readable {i : Nat} {t : Int × UInt32} (ht : t.1 = i) (h : Readable image off i) :
    decodeentry (image.mem off) off t =
      if t.2.toNat = entryrva off i then pure none else some <$> readentry (image.mem off) i := by
  obtain ⟨hi32, hplace⟩ := readable_place h
  have hstop : off + UInt32.ofInt ((20 * i : Nat) : Int) = t.2 ↔ t.2.toNat = entryrva off i := by
    rw [← UInt32.toNat_inj, hplace]
    exact eq_comm
  rw [decodeentry, ht, hi32, pure_bind]
  by_cases hat : t.2.toNat = entryrva off i
  · rw [if_pos hat, if_pos (hstop.mpr hat)]
  · rw [if_neg hat, if_neg (mt hstop.mp hat)]

theorem decodes_readable {i : Nat} {t : Int × UInt32} (ht : t.1 = i) (h : Decodes image off t) :
    Readable image off i := by
  obtain ⟨entry, hentry⟩ := h
  have hsilent : Silent (decodeentry (image.mem off) off t) fun r => r.isSome = true → Readable image off i := by
    refine i32_silent.bind fun _ _ => Silent.ite (fun _ => .pure nofun) fun _ => ?_
    rw [ht]
    exact (readentry_silent (image.mem off) i).self.map fun e he _ => ⟨e, Silent.eq_pure he.2⟩
  have hrun : (decodeentry (image.mem off) off t).run newu8buf = (.ok (some entry), newu8buf) := by
    rw [hentry]
    rfl
  exact (hsilent.of_run hrun).1 rfl

/-- The walk reads an entry unless the earliest table begins with it. -/
theorem decodes_iff {i : Nat} {t : Int × UInt32} (ht : t.1 = i) :
    Decodes image off t ↔ Readable image off i ∧ t.2.toNat ≠ entryrva off i := by
  constructor
  · intro h
    have hread := decodes_readable ht h
    refine ⟨hread, fun hat => ?_⟩
    obtain ⟨entry, hentry⟩ := h
    rw [decodeentry_readable ht hread, if_pos hat] at hentry
    have hrun := congrArg (fun x => (Comp.run x newu8buf).1) hentry
    cases hrun
  · rintro ⟨hread, hat⟩
    obtain ⟨entry, hentry⟩ := hread
    refine ⟨entry, ?_⟩
    rw [decodeentry_readable ht ⟨entry, hentry⟩, if_neg hat, hentry, map_pure]

/-- A table begins in the entry only when the earliest one begins with it. -/
def Aligned (image : Image dll) (off : UInt32) (i : Nat) : Prop :=
  (∃ table, Recorded image off i table ∧ Within off i table) →
    ∃ table, Recorded image off i table ∧ table.toNat = entryrva off i ∧ ∀ x, Recorded image off i x → table ≤ x

/-- For every image and import directory: the loop comes to the entries of the walk and ends
    at one of them; no entry that is read has the start of a table in it that was met before,
    if and only if the entries that the walk comes to, and that can be read, are such that
    the earliest table begins with them when any begins in them. -/
theorem tables_kept_iff (oswrite : List S8 → S8 → Bool) (image : Image dll) (off : UInt32) (start : U8buf) :
    (∀ r out, (listimports oswrite image.map image.type (image.mem off) off).run start = (r, out) →
      ∃ i t out', Walk oswrite image off start i t out' ∧
        (directoryturn oswrite image.map image.type (image.mem off) off t).run out' = (r.map .done, out)) ∧
    ((∀ i t out, Walk oswrite image off start i t out → Decodes image off t →
      ∀ table, Recorded image off i table → off ≤ table → ¬ Within off i table) ↔
    ∀ i t out, Walk oswrite image off start i t out → Readable image off i → Aligned image off i) := by
  refine ⟨fun r out => listimports_walk, ?_⟩
  constructor
  · rintro hkept i t out hwalk hread ⟨table, hrec, hwithin⟩
    have hearliest := walk_earliest hwalk
    have hle : off ≤ table := by
      rw [UInt32.le_iff_toNat_le]
      exact Nat.le_trans (Nat.le_add_right _ _) hwithin.1
    have hat : t.2.toNat = entryrva off i := by
      by_contra hat
      exact hkept i t out hwalk ((decodes_iff hearliest.count).mpr ⟨hread, hat⟩) table hrec hle hwithin
    refine ⟨t.2, hearliest.met.resolve_left ?_, hat, hearliest.least⟩
    rintro ⟨rfl, -⟩
    obtain ⟨j, hj, -⟩ := hrec
    exact absurd hj (Nat.not_lt_zero j)
  · intro haligned i t out hwalk hdecodes table hrec _ hwithin
    have hearliest := walk_earliest hwalk
    obtain ⟨hread, hat⟩ := (decodes_iff hearliest.count).mp hdecodes
    obtain ⟨first, hfirst, hplace, hleast⟩ := haligned i t out hwalk hread ⟨table, hrec, hwithin⟩
    -- the walk has kept that table
    have hmet : Recorded image off i t.2 := hearliest.met.resolve_left fun h => by
      obtain ⟨j, hj, -⟩ := hrec
      omega
    have heq : t.2 = first := UInt32.le_antisymm (hearliest.least first hfirst) (hleast t.2 hmet)
    exact hat (heq ▸ hplace)

/-! ## A table at a multiple of 4 -/

/-- A directory of one entry, without a last one, and its table 4 bytes behind it. -/
def unended : S8 :=
  image32 (List.replicate 8 0 ++ [0, 0x10, 0, 0] ++ [20, 0, 0, 0]) 42
    ([0x18, 0x10, 0, 0] ++ List.replicate 8 0 ++ [0x28, 0x10, 0, 0] ++ List.replicate 4 0 ++ List.replicate 4 0 ++
      [7, 0, 0, 0x80] ++ List.replicate 12 0 ++ [0x61, 0])

set_option maxRecDepth 4000 in
theorem unended_mapped : loadsections 1 (some unended) (some (unended.drop 200)) =
    pure [⟨0x1000, 0x102a, some (fileslice unended 240 282)⟩] := loadsections_one rfl

set_option maxRecDepth 4000 in
def unended_image : Image unended where
  peoff := 0x40
  nsections := 1
  hdrsize := 112
  type := .PE32
  map := [⟨0x1000, 0x102a, some (fileslice unended 240 282)⟩]
  peoff_at := rfl
  peoff_le := by decide
  signature := rfl
  nsections_at := rfl
  hdrsize_at := rfl
  magic_at := rfl
  hdrsize_le := by decide
  mapped := unended_mapped

set_option maxRecDepth 4000 in
theorem unended_turn : ∃ out, (directoryturn (fun _ _ => true) unended_image.map unended_image.type
    (unended_image.mem 0x1000) 0x1000 (0, 0xffffffff)).run newu8buf = (.ok (.yield (1, 0x1018)), out) := by
  have h : (match (directoryturn (fun _ _ => true) unended_image.map unended_image.type
    (unended_image.mem 0x1000) 0x1000 (0, 0xffffffff)).run newu8buf with
    | (.ok (.yield t), _) => t == (1, 0x1018)
    | _ => false) = true := by decide +kernel
  generalize (directoryturn (fun _ _ => true) unended_image.map unended_image.type (unended_image.mem 0x1000) 0x1000
    (0, 0xffffffff)).run newu8buf = r at h ⊢
  obtain ⟨r, out⟩ := r
  match r, h with
  | .ok (.yield t), h => exact ⟨out, by rw [eq_of_beq h]⟩

set_option maxRecDepth 4000 in
/-- The second entry is read, with the start of the table in it. -/
theorem table_read_as_entry :
    ¬ ∀ (oswrite : List S8 → S8 → Bool) (dll : S8) (image : Image dll) (off : UInt32) (start : U8buf) i t out,
      Walk oswrite image off start i t out → Decodes image off t →
        ∀ table, Recorded image off i table → off ≤ table → ¬ Within off i table := by
  intro h
  obtain ⟨out, hturn⟩ := unended_turn
  have hdecodes : Decodes unended_image 0x1000 (1, 0x1018) := ⟨(0, 0), rfl⟩
  exact h _ unended unended_image 0x1000 newu8buf 1 _ out (Walk.start.turn hturn) hdecodes 0x1018
    ⟨0, Nat.zero_lt_one, rfl⟩ (by decide) ⟨by decide, by decide⟩

end GnuWindows.Peports
