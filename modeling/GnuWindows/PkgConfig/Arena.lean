/-
  GnuWindows.PkgConfig.Arena — the arena of pkg-config (`alloc`, `newmembuf`, `finalize`).

  Blocks are taken from the end of the arena and memory buffers from its beginning. The
  padding is computed with 32 bits and taken off what is available before the division, so
  what is divided may be negative. An object size or a count that the assertions reject, a
  size that is no `size` and a pointer that leaves the arena are faults.

  Proved: `alloc` takes the size rounded up to a multiple of 8, or there is not as much
  (`alloc_eq`). In every run nothing but a lack of memory happens, and all blocks and
  buffers are apart from one another (`run_apart`).
-/
import GnuWindows.Lib.TwoEnds
import GnuWindows.PkgConfig.Stream

namespace GnuWindows.PkgConfig.Stream

open GnuWindows.Lib.Scan (ok_bind)
open GnuWindows.Lib.TwoEnds

/-- The addresses that are free, so many that a difference of pointers can say it. -/
structure Arena where
  beg : Nat
  fin : Nat
  room : fin - beg < 0x8000000000000000

/-- A value of type `size`. -/
def ssize (x : Int) : Except Fault Int :=
  if -0x8000000000000000 ≤ x ∧ x < 0x8000000000000000 then .ok x else .error .overflow

def alignment (objsize count : Int) : Int := (-(UInt32.ofInt objsize * UInt32.ofInt count) &&& 7).toNat

def Arena.back (a : Arena) (n : Nat) : Arena := ⟨a.beg, a.fin - n, by have := a.room; omega⟩

def Arena.front (a : Arena) (n : Nat) : Arena := ⟨a.beg + n, a.fin, by have := a.room; omega⟩

/-- `end -= n`. -/
def retreat (a : Arena) (n : Int) : Except Fault Arena :=
  if 0 ≤ n ∧ a.beg + n ≤ a.fin then .ok (a.back n.toNat) else .error .outside

/-- `beg += n`. -/
def advance (a : Arena) (n : Nat) : Except Fault Arena :=
  if a.beg + n ≤ a.fin then .ok (a.front n) else .error .outside

/-- The block and what is left of the arena. -/
def alloc (a : Arena) (objsize count : Int) : Except Fault (Nat × Arena) := do
  if objsize ≤ 0 then .error .assertion
  else if count < 0 then .error .assertion
  else
    let available ← ssize (a.fin - a.beg)
    let available ← ssize (available - alignment objsize count)
    if count > available.tdiv objsize then .error .oom
    else
      let total ← ssize (objsize * count)
      let size ← ssize (total + alignment objsize count)
      let a ← retreat a size
      return (a.fin, a)

/-- A memory buffer from its start to its end: the arena is not used before that. -/
def membuf (a : Arena) (cs : List Call) : Except Fault (S8 × Arena) := do
  let cap ← ssize (a.fin - a.beg)
  let b ← calls (newmembuf cap.toNat) cs
  let s ← finalize b
  let a ← advance a b.buf.length
  return (s, a)

/-! ## Runs -/

inductive Action where
  | alloc (objsize count : Int)
  | membuf (cs : List Call)

/-- What the assertions ask for. -/
def Action.Valid : Action → Prop
  | .alloc objsize count => 0 < objsize ∧ 0 ≤ count
  | .membuf _ => True

/-- The arena, and the blocks and buffers taken from it. -/
structure State where
  arena : Arena
  taken : List Region

def act (s : State) : Action → Except Fault State
  | .alloc objsize count => do
    let (start, a) ← alloc s.arena objsize count
    return ⟨a, ⟨start, (objsize * count).toNat⟩ :: s.taken⟩
  | .membuf cs => do
    let (text, a) ← membuf s.arena cs
    return ⟨a, ⟨s.arena.beg, text.length⟩ :: s.taken⟩

def run (s : State) (xs : List Action) : Except Fault State := xs.foldlM act s

/-! ## One allocation -/

/-- The size up to the next multiple of 8. -/
def padded (n : Nat) : Nat := (n + 7) / 8 * 8

/-- The product of 32 bits has the remainder of the product. -/
theorem alignment_eq {objsize count : Int} {n : Nat} (hn : objsize * count = n) :
    alignment objsize count = (padded n - n : Nat) := by
  have hneg : (UInt32.ofInt (-(n : Int))).toNat = (-(n : Int) % 2 ^ 32).toNat := by
    rw [UInt32.ofInt, UInt32.toNat_ofNat_of_lt']
    show _ < 2 ^ 32
    omega
  have h7 : (7 : UInt32).toNat = 2 ^ 3 - 1 := rfl
  rw [alignment, ← UInt32.ofInt_mul, ← UInt32.ofInt_neg, hn, UInt32.toNat_and, hneg, h7,
    Nat.and_two_pow_sub_one_eq_mod, padded]
  omega

/-- Dividing a negative number comes out too large, which does not matter if there is
    something to divide for. -/
theorem tdiv_lt_iff {x b c : Int} (hb : 0 < b) (hc : 0 ≤ c) (hx : c = 0 → 0 ≤ x) : x.tdiv b < c ↔ x < b * c := by
  by_cases hneg : 0 ≤ x
  · rw [Int.tdiv_eq_ediv_of_nonneg hneg, Int.ediv_lt_iff_lt_mul hb, Int.mul_comm]
  · have hpos : 0 < c := by omega
    have hquot : x.tdiv b ≤ 0 := by
      have h := Int.tdiv_nonneg (a := -x) (b := b) (by omega) (by omega)
      rw [Int.neg_tdiv] at h
      omega
    have hprod : 0 < b * c := Int.mul_pos hb hpos
    exact iff_of_true (by omega) (by omega)

theorem ssize_ok {x : Int} (hlow : -0x8000000000000000 ≤ x) (hhigh : x < 0x8000000000000000) : ssize x = .ok x :=
  if_pos ⟨hlow, hhigh⟩

/-- The padded size is taken from the end, or it does not fit. -/
theorem alloc_eq {a : Arena} (hle : a.beg ≤ a.fin) {objsize count : Int} {n : Nat} (hobj : 0 < objsize)
    (hcount : 0 ≤ count) (hn : objsize * count = n) : alloc a objsize count =
      if a.beg + padded n ≤ a.fin then .ok (a.fin - padded n, a.back (padded n)) else .error .oom := by
  have hroom := a.room
  have hpad : n ≤ padded n ∧ padded n ≤ n + 7 := by
    rw [padded]
    omega
  have hzero : count = 0 → n = 0 := by
    rintro rfl
    rw [Int.mul_zero] at hn
    omega
  have hgap : ((padded n - n : Nat) : Int) = padded n - n := Int.ofNat_sub hpad.1
  have hfull : ssize (a.fin - a.beg) = .ok (a.fin - a.beg : Int) := ssize_ok (by omega) (by omega)
  have havailable : ssize (a.fin - a.beg - (padded n - n)) = .ok (a.fin - a.beg - (padded n - n) : Int) :=
    ssize_ok (by omega) (by omega)
  -- nothing is asked for without padding
  have hdiv := tdiv_lt_iff (x := a.fin - a.beg - (padded n - n)) hobj hcount fun h => by
    have := hzero h
    have : padded n = 0 := by rw [hzero h]; rfl
    omega
  rw [alloc, if_neg (by omega), if_neg (by omega), alignment_eq hn, hgap, hfull, ok_bind, havailable, ok_bind]
  by_cases hfits : a.beg + padded n ≤ a.fin
  · have htotal : ssize (objsize * count) = .ok (n : Int) := by
      rw [hn]
      exact ssize_ok (by omega) (by omega)
    have hsize : ssize (n + (padded n - n)) = .ok (padded n : Int) := by
      rw [show (n + (padded n - n) : Int) = padded n by omega]
      exact ssize_ok (by omega) (by omega)
    have hretreat : retreat a (padded n) = .ok (a.back (padded n)) := if_pos ⟨by omega, by omega⟩
    rw [if_neg (by rw [gt_iff_lt, hdiv, hn]; omega), htotal, ok_bind, hsize, ok_bind, hretreat, if_pos hfits]
    rfl
  · rw [if_pos (by rw [gt_iff_lt, hdiv, hn]; omega), if_neg hfits]

/-- A buffer leaves what was printed at the beginning, or there is too much of it. -/
theorem membuf_eq {a : Arena} (hle : a.beg ≤ a.fin) (cs : List Call) : membuf a cs = .error .oom ∨
    a.beg + (printed cs).length ≤ a.fin ∧ membuf a cs = .ok (printed cs, a.front (printed cs).length) := by
  have hroom := a.room
  have hcap : ssize (a.fin - a.beg) = .ok (a.fin - a.beg : Int) := ssize_ok (by omega) (by omega)
  rw [membuf, hcap, ok_bind, calls_memory rfl (Nat.zero_le _)]
  split
  case isTrue h =>
    have hfits : a.beg + (printed cs).length ≤ a.fin := by
      rcases h.2 with hnil | hlt
      · rw [hnil]
        exact hle
      · have hlt : (printed cs).length < (a.fin - a.beg : Int).toNat := hlt
        omega
    have hadvance : advance a (printed cs).length = .ok (a.front (printed cs).length) := if_pos hfits
    refine .inr ⟨hfits, ?_⟩
    show (advance a (printed cs).length >>= fun a => Except.ok (printed cs, a)) = _
    rw [hadvance, ok_bind]
  case isFalse => exact .inl rfl

/-! ## Every run -/

def State.space (s : State) : Space := ⟨s.arena.beg, s.arena.fin, s.taken⟩

/-- The gap above a block, which leaves the end a multiple of 8. -/
theorem padded_gap (n : Nat) : padded n = n + (padded n - n) ∧ 8 ∣ padded n := by
  rw [padded]
  omega

/-- An action takes a region from one of the ends, or there is no memory. -/
theorem act_takes {s : State} (hle : s.arena.beg ≤ s.arena.fin) {x : Action} (hx : x.Valid) : act s x = .error .oom ∨
    ∃ t, act s x = .ok t ∧ Take s.space t.space ∧ (8 ∣ s.arena.fin → 8 ∣ t.arena.fin) := by
  cases x with
  | alloc objsize count =>
    obtain ⟨hobj, hcount⟩ := hx
    obtain ⟨n, hn⟩ := Int.eq_ofNat_of_zero_le (Int.mul_nonneg (Int.le_of_lt hobj) hcount)
    have heq := alloc_eq hle hobj hcount hn
    obtain ⟨hgap, hdvd⟩ := padded_gap n
    by_cases hfits : s.arena.beg + padded n ≤ s.arena.fin
    · rw [if_pos hfits] at heq
      refine .inr ⟨⟨s.arena.back (padded n), ⟨s.arena.fin - padded n, n⟩ :: s.taken⟩, ?_, ?_,
        fun h => Nat.dvd_sub h hdvd⟩
      · rw [act, heq, ok_bind, hn]
        rfl
      · have htake : Take s.space _ := .high n (padded n - n) (hgap ▸ hfits)
        rwa [← hgap] at htake
    · rw [if_neg hfits] at heq
      rw [act, heq]
      exact .inl rfl
  | membuf cs =>
    rcases membuf_eq hle cs with hoom | ⟨hfits, heq⟩
    · rw [act, hoom]
      exact .inl rfl
    · refine .inr ⟨⟨s.arena.front (printed cs).length, ⟨s.arena.beg, (printed cs).length⟩ :: s.taken⟩, ?_,
        .low _ hfits, id⟩
      rw [act, heq, ok_bind]
      rfl

/-- What every action keeps, a run keeps. -/
theorem run_keeps {lo hi : Nat} {s : State} (hs : Inv lo hi s.space) (halign : 8 ∣ s.arena.fin) {xs : List Action}
    (hxs : ∀ x ∈ xs, x.Valid) : run s xs = .error .oom ∨
    ∃ t, run s xs = .ok t ∧ Inv lo hi t.space ∧ 8 ∣ t.arena.fin := by
  induction xs generalizing s with
  | nil => exact .inr ⟨s, rfl, hs, halign⟩
  | cons x xs ih =>
    rw [run, List.foldlM_cons]
    rcases act_takes hs.le (hxs x List.mem_cons_self) with hoom | ⟨t, ht, htake, hdvd⟩
    · rw [hoom]
      exact .inl rfl
    · rw [ht, ok_bind]
      exact ih (htake.keeps hs) (hdvd halign) fun y hy => hxs y (List.mem_cons_of_mem x hy)

/-- A block is where the free memory ends, from a multiple of 8, or it does not fit. -/
theorem alloc_apart {lo hi : Nat} {s : State} (hs : Inv lo hi s.space) (halign : 8 ∣ s.arena.fin) {objsize count : Int}
    {n : Nat} (hobj : 0 < objsize) (hcount : 0 ≤ count) (hn : objsize * count = n) :
    (s.arena.fin - s.arena.beg < padded n ∧ alloc s.arena objsize count = .error .oom) ∨
    (padded n ≤ s.arena.fin - s.arena.beg ∧ ∃ start a, alloc s.arena objsize count = .ok (start, a) ∧ 8 ∣ start ∧
      Region.In ⟨start, n⟩ s.arena.beg s.arena.fin ∧ (∀ r ∈ s.taken, Region.Apart ⟨start, n⟩ r) ∧
      a.beg ≤ a.fin ∧ 8 ∣ a.fin) := by
  have hle : s.arena.beg ≤ s.arena.fin := hs.le
  obtain ⟨hgap, hdvd⟩ := padded_gap n
  rw [alloc_eq hle hobj hcount hn]
  by_cases hfits : s.arena.beg + padded n ≤ s.arena.fin
  · have hstart : 8 ∣ s.arena.fin - padded n := Nat.dvd_sub halign hdvd
    have hin : Region.In ⟨s.arena.fin - padded n, n⟩ s.arena.beg s.arena.fin := by
      constructor
      · exact Nat.le_sub_of_add_le hfits
      · show s.arena.fin - padded n + n ≤ s.arena.fin
        omega
    rw [if_pos hfits]
    exact .inr ⟨by omega, _, _, rfl, hstart, hin, free_apart hs hin, hin.1, hstart⟩
  · rw [if_neg hfits]
    exact .inl ⟨by omega, rfl⟩

/-- From an arena that ends at a multiple of 8, every run keeps that and the order of its
    ends, and what it has taken is in the arena and apart. Nothing but a lack of memory
    ends it. In every state it reaches, `alloc` fails exactly when the padded size does not
    fit; a block starts at a multiple of 8, in what is free, apart from everything taken. -/
theorem run_apart {a : Arena} (hle : a.beg ≤ a.fin) (halign : 8 ∣ a.fin) {xs : List Action}
    (hxs : ∀ x ∈ xs, x.Valid) : run ⟨a, []⟩ xs = .error .oom ∨
    ∃ s, run ⟨a, []⟩ xs = .ok s ∧ s.arena.beg ≤ s.arena.fin ∧ 8 ∣ s.arena.fin ∧
      (∀ r ∈ s.taken, r.In a.beg a.fin) ∧ s.taken.Pairwise Region.Apart ∧
      ∀ (objsize count : Int) (n : Nat), 0 < objsize → 0 ≤ count → objsize * count = n →
        (s.arena.fin - s.arena.beg < padded n ∧ alloc s.arena objsize count = .error .oom) ∨
        (padded n ≤ s.arena.fin - s.arena.beg ∧ ∃ start b, alloc s.arena objsize count = .ok (start, b) ∧ 8 ∣ start ∧
          Region.In ⟨start, n⟩ s.arena.beg s.arena.fin ∧ (∀ r ∈ s.taken, Region.Apart ⟨start, n⟩ r) ∧
          b.beg ≤ b.fin ∧ 8 ∣ b.fin) := by
  rcases run_keeps (s := ⟨a, []⟩) (Inv.start hle) halign hxs with hoom | ⟨s, hrun, hs, hdvd⟩
  · exact .inl hoom
  · refine .inr ⟨s, hrun, hs.le, hdvd, fun r hr => hs.inside hr, hs.apart, fun objsize count n hobj hcount hn => ?_⟩
    exact alloc_apart hs hdvd hobj hcount hn

/-- A size that needs padding, a buffer that stays empty, and a size that needs none. -/
theorem run_apart_blocks : ∃ s, run ⟨⟨16, 64, by decide⟩, []⟩ [.alloc 3 5, .membuf [], .alloc 8 2] = .ok s ∧
    s.taken.Pairwise Region.Apart ∧ 8 ∣ s.arena.fin := by
  have hvalid : ∀ x ∈ [Action.alloc 3 5, .membuf [], .alloc 8 2], x.Valid :=
    List.forall_mem_cons.mpr ⟨⟨by decide, by decide⟩, List.forall_mem_cons.mpr ⟨trivial,
      List.forall_mem_singleton.mpr ⟨by decide, by decide⟩⟩⟩
  rcases run_apart (a := ⟨16, 64, by decide⟩) (by decide) (by decide) hvalid with
    hoom | ⟨s, hrun, -, hdvd, -, hapart, -⟩
  · cases hoom
  · exact ⟨s, hrun, hapart, hdvd⟩

end GnuWindows.PkgConfig.Stream
