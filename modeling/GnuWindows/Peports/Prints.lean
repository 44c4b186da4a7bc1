/-
  GnuWindows.Peports.Prints — what a computation of peports.c prints.

  The buffer is one in front of a device that may fail (`prints8_buffer`), and so a sink:
  printing in pieces is printing the whole (`prints8_append`), also after a failed write.
  So a name and a number are printed as one text (`printname_eq`, `printu32_eq`), and
  `Prints` says what a computation prints from any buffer.

  A read that succeeds is the value of its bytes (`u16at`, `u32at`), one that does not
  throws.
-/
import GnuWindows.Peports.Processpe
import GnuWindows.Lib.Blocks
import GnuWindows.Lib.Writer

namespace GnuWindows.Peports

open GnuWindows.Lib.Blocks (Device Buffer fits_count fills_count)
open GnuWindows.Lib.Hoare (Comp Sink Says Silent Done Nearer)
open GnuWindows.PkgConfig (S8 S)

/-! ## The buffer as a sink -/

section

variable (oswrite : List S8 → S8 → Bool)

@[simp] theorem prints8_nil (b : U8buf) : prints8 oswrite b [] = b := by rw [prints8, dif_neg (by simp)]

theorem prints8_err {b : U8buf} (h : b.err = true) (s : S8) : prints8 oswrite b s = b := by
  rw [prints8, dif_neg (by simp [h])]

/-- A string that leaves room is buffered. -/
theorem prints8_fits {buf s : S8} {chunks : List S8} (room : buf.length < 1 <<< 12) (h : (buf ++ s).length < 1 <<< 12) :
    prints8 oswrite ⟨buf, false, chunks, room⟩ s = ⟨buf ++ s, false, chunks, h⟩ := by
  by_cases hs : s = []
  · subst hs
    simp
  · obtain ⟨hcount, hne⟩ := fits_count h
    rw [prints8, dif_pos ⟨rfl, hs⟩]
    simp only [hcount, List.take_length, List.drop_length, List.length_append, hne, dif_neg, not_false_iff, prints8_nil]

/-- The bytes that fill the buffer are written, and what follows starts a new one. -/
theorem prints8_fills {buf u v : S8} {chunks : List S8} (room : buf.length < 1 <<< 12)
    (h : (buf ++ u).length = 1 <<< 12) :
    prints8 oswrite ⟨buf, false, chunks, room⟩ (u ++ v) =
      prints8 oswrite ⟨[], !oswrite chunks (buf ++ u), chunks ++ [buf ++ u], by decide⟩ v := by
  obtain ⟨hs, hcount⟩ := fills_count (v := v) room h
  rw [prints8, dif_pos ⟨rfl, hs⟩]
  simp only [hcount, List.take_left, List.drop_left, h, dif_pos]

/-- An output, by the strings that were written to it and whether one failed. -/
def device : Device (List S8 × Bool) UInt8 where
  cap := 1 <<< 12
  pos := by decide
  write := fun d b => (d.1 ++ [b], !oswrite d.1 b)
  failed := Prod.snd

variable {oswrite}

def ofBuffer (r : Buffer (device oswrite)) : U8buf := ⟨r.buf, r.dev.2, r.dev.1, r.room⟩

variable (oswrite)

def U8buf.buffer (b : U8buf) : Buffer (device oswrite) := ⟨b.buf, (b.chunks, b.err), b.room⟩

theorem prints8_put (r : Buffer (device oswrite)) (s : S8) : prints8 oswrite (ofBuffer r) s = ofBuffer (r.put s) := by
  induction r, s using Buffer.put_induction with
  | failed r s hdev =>
    rw [Buffer.put_failed hdev]
    exact prints8_err oswrite hdev s
  | fits buf dev room s hdev hfits =>
    rw [Buffer.put_fits room hdev hfits]
    obtain ⟨chunks, err⟩ := dev
    obtain rfl : err = false := hdev
    exact prints8_fits oswrite room hfits
  | fills buf dev room u v hdev hu ih =>
    rw [Buffer.put_fills room hdev hu]
    obtain ⟨chunks, err⟩ := dev
    obtain rfl : err = false := hdev
    exact (prints8_fills oswrite room hu).trans ih

/-- Printing is putting. -/
theorem prints8_buffer (b : U8buf) (s : S8) : prints8 oswrite b s = ofBuffer ((b.buffer oswrite).put s) :=
  prints8_put oswrite (b.buffer oswrite) s

/-- Printing in pieces is printing the whole. -/
theorem prints8_append (b : U8buf) (s t : S8) :
    prints8 oswrite b (s ++ t) = prints8 oswrite (prints8 oswrite b s) t := by
  rw [prints8_buffer oswrite b s, prints8_put, prints8_buffer, Buffer.put_append]

/-- Everything printed so far, as long as nothing fails to be written. -/
def U8buf.total (b : U8buf) : S8 := b.chunks.flatten ++ b.buf

/-- What was printed is written or buffered, unless a write failed. -/
theorem total_prints8 {b : U8buf} {s : S8} (h : (prints8 oswrite b s).err = false) :
    (prints8 oswrite b s).total = b.total ++ s := by
  rw [prints8_buffer] at h ⊢
  exact (b.buffer oswrite).put_sent (fun d => d.1.flatten) (fun d b => by simp [device]) s h

/-- What every write keeps while none has failed. -/
theorem prints8_keeps {P : List S8 → Bool → Prop}
    (h : ∀ chunks b, P chunks false → P (chunks ++ [b]) (!oswrite chunks b)) (b : U8buf) (s : S8)
    (hb : P b.chunks b.err) : P (prints8 oswrite b s).chunks (prints8 oswrite b s).err := by
  rw [prints8_buffer]
  refine (b.buffer oswrite).put_keeps (P := fun d => P d.1 d.2) ?_ s hb
  rintro ⟨chunks, err⟩ block hdev _ hd
  obtain rfl : err = false := hdev
  exact h chunks block hd

/-- When every write succeeds nothing is lost. -/
theorem prints8_total {b : U8buf} (hb : b.err = false) (s : S8) :
    (prints8 (fun _ _ => true) b s).total = b.total ++ s :=
  total_prints8 _ (prints8_keeps (fun _ _ => true) (P := fun _ err => err = false) (fun _ _ _ => rfl) b s hb)

/-- Different texts are told apart. -/
theorem prints8_inj {s t : S8} (h : prints8 (fun _ _ => true) newu8buf s = prints8 (fun _ _ => true) newu8buf t) :
    s = t := by
  have hs : (prints8 (fun _ _ => true) newu8buf s).total = s := prints8_total rfl s
  have ht : (prints8 (fun _ _ => true) newu8buf t).total = t := prints8_total rfl t
  rw [← hs, h, ht]

/-- Standard output. -/
def stdout : Sink U8buf UInt8 := ⟨prints8 oswrite, prints8_nil oswrite, prints8_append oswrite⟩

end

instance : Nonempty U8buf := ⟨newu8buf⟩

/-- What `x` prints and how it ends, from any buffer. -/
abbrev Prints {α : Type} (oswrite : List S8 → S8 → Bool) (x : Pe α) (Q : Except Fault α → S8 → Prop) : Prop :=
  Says (stdout oswrite) x Q

variable {oswrite : List S8 → S8 → Bool}

theorem print_print (s t : S8) : (do print oswrite s; print oswrite t) = print oswrite (s ++ t) := by
  funext b
  show (_, prints8 oswrite (prints8 oswrite b s) t) = (_, prints8 oswrite b (s ++ t))
  rw [prints8_append]

theorem print_nil : print oswrite [] = pure () := by
  funext b
  show (_, prints8 oswrite b []) = (_, b)
  rw [prints8_nil]

/-! ## Numbers and names -/

theorem printu32_eq (x : UInt32) : printu32 oswrite x = print oswrite (digits x.toNat) := by
  have hx := x.toNat_lt
  have hlen := digits_length x.toNat 9 (by omega)
  exact if_pos (by omega)

theorem digits_eq (x : Nat) :
    digits x = (if x / 10 = 0 then [] else digits (x / 10)) ++ [UInt8.ofNat (x % 10) + 0x30] := by
  rw [digits]
  split <;> rfl

/-- A byte as it is printed. -/
def escaped (c : UInt8) : S8 := if escapes c then [0x5c, 0x78, hexdigit (c >>> 4), hexdigit (c &&& 15)] else [c]

/-- A name as it is printed. -/
def nametext (s : Slice) : S8 :=
  match s.getD [] with
  | [] => S "<>"
  | c :: rest => (c :: rest).flatMap escaped

theorem forM_print {α : Type} (l : List α) (f : α → S8) :
    (l.forM fun c => print oswrite (f c)) = print oswrite (l.flatMap f) := by
  induction l with
  | nil => exact print_nil.symm
  | cons c l ih =>
    rw [List.flatMap_cons, ← print_print, ← ih]
    rfl

theorem printname_eq (s : Slice) : printname oswrite s = print oswrite (nametext s) := by
  unfold printname nametext
  cases s.getD [] with
  | nil => rfl
  | cons c rest =>
    simp only
    rw [← forM_print]
    refine congrArg _ (funext fun c => ?_)
    unfold escaped
    split <;> rfl

/-! ## Reading -/

/-- The byte at a place. -/
def u8at (s : Slice) (off : Nat) : Option UInt8 := (s.getD [])[off]?

/-- Two bytes in little endian. -/
def u16at (s : Slice) (off : Nat) : Option UInt16 := do
  let p1 ← u8at s (off + 1)
  let p0 ← u8at s off
  pure (p1.toUInt16 <<< 8 ||| p0.toUInt16)

/-- Four bytes in little endian. -/
def u32at (s : Slice) (off : Nat) : Option UInt32 := do
  let p3 ← u8at s (off + 3)
  let p2 ← u8at s (off + 2)
  let p1 ← u8at s (off + 1)
  let p0 ← u8at s off
  pure (p3.toUInt32 <<< 24 ||| p2.toUInt32 <<< 16 ||| p1.toUInt32 <<< 8 ||| p0.toUInt32)

theorem i32_eq {x : Int} (h : -0x80000000 ≤ x ∧ x < 0x80000000) : i32 x = pure x := if_pos h

theorem checkadd_pure {a b : UInt32} (h : a.toNat + b.toNat < 0x100000000) : checkadd a b = pure (a + b) := by
  have hb := b.toNat_lt
  have hmax : (0xffffffff : UInt32).toNat = 0xffffffff := rfl
  apply if_neg
  rw [UInt32.lt_iff_toNat_lt, UInt32.toNat_sub_of_le _ _ (UInt32.le_iff_toNat_le.mpr (Nat.le_of_lt_succ hb))]
  omega

theorem u8at_lt {s : Slice} {n : Nat} (h : (n : Int) < s.len) : ∃ b, u8at s n = some b :=
  ⟨_, List.getElem?_eq_getElem (Int.ofNat_lt.mp h)⟩

theorem u8at_ge {s : Slice} {off : Nat} (h : s.len ≤ off) : u8at s off = none :=
  List.getElem?_eq_none (Int.ofNat_le.mp h)

/-- What was read lies in the slice. -/
theorem u8at_le {s : Slice} {off : Nat} {b : UInt8} (h : u8at s off = some b) : (off : Int) + 1 ≤ s.len := by
  by_contra hlt
  rw [u8at_ge (by omega)] at h
  cases h

theorem u16at_le {s : Slice} {off : Nat} {v : UInt16} (h : u16at s off = some v) : (off : Int) + 2 ≤ s.len := by
  obtain ⟨p1, h1, -⟩ := Option.bind_eq_some_iff.mp h
  have := u8at_le h1
  omega

theorem u32at_le {s : Slice} {off : Nat} {v : UInt32} (h : u32at s off = some v) : (off : Int) + 4 ≤ s.len := by
  obtain ⟨p3, h3, -⟩ := Option.bind_eq_some_iff.mp h
  have := u8at_le h3
  omega

theorem load_eq {s : Slice} {off : Nat} {b : UInt8} (h : u8at s off = some b) : load s off = pure b := by
  cases s with
  | none => cases h
  | some s =>
    have hb : s[off]? = some b := h
    simp only [load]
    rw [if_neg (by omega), Int.toNat_natCast, hb]

theorem load_add {s : Slice} {off : Nat} (k : Nat) {b : UInt8} (h : u8at s (off + k) = some b) :
    load s ((off : Int) + k) = pure b := by
  rw [← Int.natCast_add]
  exact load_eq h

theorem readu16_eq (s : Slice) (off : Nat) :
    readu16 s off = (u16at s off).elim (throws "unexpected end of input (uint16)") pure := by
  unfold readu16 u16at
  split
  · next h =>
    rw [u8at_ge (by omega)]
    rfl
  · next h =>
    obtain ⟨p1, h1⟩ := u8at_lt (s := s) (n := off + 1) (by omega)
    obtain ⟨p0, h0⟩ := u8at_lt (s := s) (n := off) (by omega)
    have e1 : load s ((off : Int) + 1) = pure p1 := load_add 1 h1
    rw [e1, load_eq h0, h1, h0]
    rfl

theorem readu32_eq (s : Slice) (off : Nat) :
    readu32 s off = (u32at s off).elim (throws "unexpected end of input (uint32)") pure := by
  unfold readu32 u32at
  split
  · next h =>
    rw [u8at_ge (by omega)]
    rfl
  · next h =>
    obtain ⟨p3, h3⟩ := u8at_lt (s := s) (n := off + 3) (by omega)
    obtain ⟨p2, h2⟩ := u8at_lt (s := s) (n := off + 2) (by omega)
    obtain ⟨p1, h1⟩ := u8at_lt (s := s) (n := off + 1) (by omega)
    obtain ⟨p0, h0⟩ := u8at_lt (s := s) (n := off) (by omega)
    have e3 : load s ((off : Int) + 3) = pure p3 := load_add 3 h3
    have e2 : load s ((off : Int) + 2) = pure p2 := load_add 2 h2
    have e1 : load s ((off : Int) + 1) = pure p1 := load_add 1 h1
    rw [e3, e2, e1, load_eq h0, h3, h2, h1, h0]
    rfl

theorem readu16_pure {s : Slice} {off : Int} {n : Nat} (hoff : off = n) {v : UInt16} (h : u16at s n = some v) :
    readu16 s off = pure v := by
  rw [hoff, readu16_eq, h]
  rfl

theorem readu32_pure {s : Slice} {off : Int} {n : Nat} (hoff : off = n) {v : UInt32} (h : u32at s n = some v) :
    readu32 s off = pure v := by
  rw [hoff, readu32_eq, h]
  rfl

/-- The first `n` entries of a table, all of them there. -/
structure Entries {α : Type} (entry : Nat → Option α) (n : Nat) (l : List α) : Prop where
  length : l.length = n
  entry : ∀ i (h : i < l.length), entry i = some l[i]

namespace Entries

variable {α : Type} {entry : Nat → Option α} {n : Nat} {l : List α}

theorem nil : Entries entry 0 [] := ⟨rfl, nofun⟩

theorem snoc (h : Entries entry n l) {a : α} (ha : entry n = some a) : Entries entry (n + 1) (l ++ [a]) := by
  refine ⟨by rw [List.length_append, h.length, List.length_singleton], fun i hi => ?_⟩
  rw [List.length_append, List.length_singleton] at hi
  rcases Nat.lt_succ_iff_lt_or_eq.mp hi with hi | rfl
  · rw [List.getElem_append_left hi]
    exact h.entry i hi
  · rw [List.getElem_concat_length rfl, ← ha, h.length]

end Entries

/-! ## What a value tells -/

theorem i32_silent {x : Int} : Silent (i32 x) (· = x) := .ite (fun _ => .pure rfl) fun _ => .throw

theorem checkadd_silent {a b : UInt32} :
    Silent (checkadd a b) fun r => r = a + b ∧ a.toNat + b.toNat < 0x100000000 := by
  refine .ite (fun _ => .throw) fun h => .pure ⟨rfl, ?_⟩
  have hb := b.toNat_lt
  rw [UInt32.lt_iff_toNat_lt, UInt32.toNat_sub_of_le _ _ (UInt32.le_iff_toNat_le.mpr (Nat.le_of_lt_succ hb))] at h
  have hmax : (0xffffffff : UInt32).toNat = 0xffffffff := rfl
  omega

theorem check_silent {c : Prop} [Decidable c] {reason : String} : Silent (check c reason) fun _ => ¬ c :=
  .ite (fun _ => .throw) fun h => .pure h

theorem slice3_silent {s : Slice} {beg fin : Int} : Silent (slice3 s beg fin) fun r =>
    (0 ≤ beg ∧ beg ≤ fin ∧ fin ≤ s.len) ∧ r = s.map fun bytes => (bytes.drop beg.toNat).take (fin - beg).toNat :=
  .ite (fun _ => .throw) fun h => .pure ⟨⟨by omega, by omega, by omega⟩, rfl⟩

theorem store_silent {array : S8} {i : Nat} {b : UInt8} :
    Silent (store array i b) fun r => i < array.length ∧ r = array.set i b :=
  .ite (fun h => .pure ⟨h, rfl⟩) fun _ => .throw

theorem alloc_silent {a : Arena} {count : Int} {size align : Nat} :
    Silent (alloc a count size align) fun _ => True := by
  unfold alloc
  simp only
  split
  · exact .throw
  · split
    · exact .throw
    · exact .pure trivial

theorem readu16_silent {s : Slice} {off : Int} {n : Nat} (h : off = n) :
    Silent (readu16 s off) fun v => u16at s n = some v := by
  rw [h, readu16_eq]
  cases u16at s n with
  | none => exact .throw
  | some v => exact .pure rfl

theorem readu32_silent {s : Slice} {off : Int} {n : Nat} (h : off = n) :
    Silent (readu32 s off) fun v => u32at s n = some v := by
  rw [h, readu32_eq]
  cases u32at s n with
  | none => exact .throw
  | some v => exact .pure rfl

/-! ## Loops -/

/-- The loop rule for a counter that starts at 0: every turn keeps the invariant. -/
theorem forloop_silent {τ : Type} {n : Int} {body : Int → τ → Pe τ} {I : Nat → τ → Prop} {start : τ}
    (hturn : ∀ (i : Nat) t, (i : Int) < n → I i t → Silent (body i t) (I (i + 1))) (hstart : I 0 start) :
    Silent (forloop n body start) (I n.toNat) := by
  refine Silent.map (Q := fun t => I n.toNat t.2) ?_ fun t h => h
  refine Silent.loop (P := fun t => I n.toNat t.2) (I := fun t : Int × τ => ∃ i : Nat, t.1 = i ∧ i ≤ n.toNat ∧ I i t.2)
    (fun t ht => ?_)
    ⟨0, rfl, Nat.zero_le _, hstart⟩
  obtain ⟨i, hi, hle, ht⟩ := ht
  refine Silent.ite (fun hlt => ?_) fun hge => .pure ?_
  · rw [hi] at hlt ⊢
    refine (hturn i t.2 hlt ht).bind fun next hnext => i32_silent.bind fun j hj => .pure ?_
    exact ⟨i + 1, hj, by omega, hnext⟩
  · obtain rfl : i = n.toNat := by omega
    exact ht

/-- The same for what is printed. -/
theorem forloop_prints {τ : Type} {n : Int} {body : Int → τ → Pe τ} {I : Nat → τ → S8 → Prop} {start : τ}
    (hturn : ∀ (i : Nat) t acc, (i : Int) < n → I i t acc →
      Prints oswrite (body i t) (Done fun t' u => I (i + 1) t' (acc ++ u))) (hstart : I 0 start []) :
    Prints oswrite (forloop n body start) (Done (I n.toNat)) := by
  refine Says.done_bind (Q := fun t text => I n.toNat t.2 text) ?_ fun t text h => .done_pure (by rwa [List.append_nil])
  refine Says.done_loop (I := fun (t : Int × τ) acc => ∃ i : Nat, t.1 = i ∧ i ≤ n.toNat ∧ I i t.2 acc)
    (fun t acc ht => ?_) ⟨0, rfl, Nat.zero_le _, hstart⟩
  obtain ⟨i, hi, hle, ht⟩ := ht
  refine Says.ite (fun hlt => ?_) fun hge => .done_pure ?_
  · rw [hi] at hlt ⊢
    refine (hturn i t.2 acc hlt ht).done_bind fun next u hnext => .silent_bind i32_silent fun j hj => .done_pure ?_
    rw [List.append_nil]
    exact ⟨i + 1, hj, by omega, hnext⟩
  · obtain rfl : i = n.toNat := by omega
    rw [List.append_nil]
    exact ht

/-! ## Loops whose turns are known -/

theorem print_bind_print {α : Type} (s t : S8) (x : Pe α) :
    (do print oswrite s; print oswrite t; x) = (do print oswrite (s ++ t); x) := by
  rw [← print_print, bind_assoc]

/-- The turns before the last one are at `u 0`, `u 1` and so on, one for each of the list. -/
theorem loop_exact {o : List S8 → S8 → Bool} {τ β : Type} {body : τ → Pe (ForInStep τ)} {measure : τ → Nat}
    {h : Nearer body measure} {u : Nat → τ} {w : β → S8} {l : List β} {v : S8} {z : τ}
    (hturn : ∀ i (h : i < l.length), body (u i) = (do print o (w l[i]); pure (.yield (u (i + 1)))))
    (hend : body (u l.length) = (do print o v; pure (.done z))) :
    Comp.loop body measure h (u 0) = (do print o (l.flatMap w ++ v); pure z) := by
  have hfrom : ∀ (r : List β) i, i ≤ l.length → l.drop i = r →
      Comp.loop body measure h (u i) = (do print o (r.flatMap w ++ v); pure z) := by
    intro r
    induction r with
    | nil =>
      intro i hi hdrop
      rw [Nat.le_antisymm hi (List.drop_eq_nil_iff.mp hdrop), Comp.loop_eq, hend, bind_assoc]
      rfl
    | cons b r ih =>
      intro i hi hdrop
      have hlt : i < l.length := by
        by_contra hge
        rw [List.drop_of_length_le (Nat.not_lt.mp hge)] at hdrop
        cases hdrop
      have hcons := List.drop_eq_getElem_cons hlt
      rw [hdrop] at hcons
      obtain ⟨rfl, hrest⟩ := List.cons.inj hcons
      rw [Comp.loop_eq, hturn i hlt, bind_assoc, List.flatMap_cons, List.append_assoc, ← print_bind_print,
        ← ih (i + 1) hlt hrest.symm]
      rfl
  exact hfrom l 0 (Nat.zero_le _) rfl

theorem forloop_exact {o : List S8 → S8 → Bool} {τ β : Type} (body : Int → τ → Pe τ) {l : List β} {n : Nat}
    (hl : l.length = n) (hn : n ≤ 0x7fffffff) {u : Nat → τ} {w : β → S8}
    (hturn : ∀ i (h : i < l.length), body i (u i) = (do print o (w l[i]); pure (u (i + 1)))) :
    forloop n body (u 0) = (do print o (l.flatMap w); pure (u n)) := by
  subst hl
  have hloop := loop_exact (h := forturn_nearer l.length body) (u := fun i => ((i : Int), u i)) (w := w) (l := l)
    (v := []) (z := ((l.length : Int), u l.length)) (o := o) ?_ ?_
  · rw [List.append_nil] at hloop
    exact congrArg (Prod.snd <$> ·) hloop
  · intro i hi
    have hin : ((i : Int) + 1) = ((i + 1 : Nat) : Int) := rfl
    rw [forturn, if_pos (Int.ofNat_lt.mpr hi), hturn i hi, bind_assoc, i32_eq (by omega), hin]
    rfl
  · rw [forturn, if_neg (Int.lt_irrefl _), print_nil]
    rfl

/-- A loop whose turns print nothing. -/
theorem forloop_pure {τ : Type} (body : Int → τ → Pe τ) {n : Nat} (hn : n ≤ 0x7fffffff) {u : Nat → τ}
    (hturn : ∀ i : Nat, i < n → body i (u i) = pure (u (i + 1))) : forloop n body (u 0) = pure (u n) := by
  have hloop := forloop_exact body (o := fun _ _ => true) (l := List.range n) (n := n) List.length_range hn (u := u)
    (w := fun _ => []) fun i hi => by
      rw [hturn i (by rwa [List.length_range] at hi), print_nil]
      rfl
  have hnothing : ((List.range n).flatMap fun _ => ([] : S8)) = [] := by simp
  rw [hloop, hnothing, print_nil]
  rfl

end GnuWindows.Peports
