/-
  GnuWindows.PkgConfig.Buffer — buffered output to a file (`u8buf` with an `fd`).

  A buffer carries the fact that it is never left full, which is what lets the loop of
  `prints8` go on. `chunks` are the strings `os_write` was called with, in order.

  Proved: the buffer is one in front of a device that never fails (`prints8_buffer`). So
  what was written and what is still buffered is what was printed (`total_prints8`), and
  printing in pieces is printing the whole (`prints8_append`).
-/
import GnuWindows.Lib.Blocks
import GnuWindows.PkgConfig.Bytes

namespace GnuWindows.PkgConfig

open GnuWindows.Lib.Blocks (Device Buffer fits_count fills_count)

structure U8buf where
  cap : Nat
  buf : S8
  chunks : List S8
  room : buf.length < cap

def newfdbuf (cap : Nat) (h : 0 < cap) : U8buf := ⟨cap, [], [], h⟩

def flush (b : U8buf) : U8buf :=
  { b with
    buf := []
    chunks := if b.buf ≠ [] then b.chunks ++ [b.buf] else b.chunks
    room := Nat.lt_of_le_of_lt (Nat.zero_le _) b.room }

def prints8 (b : U8buf) (s : S8) : U8buf :=
  if _h : s = [] then b
  else
    let avail := b.cap - b.buf.length
    let count := min avail s.length
    let buf := b.buf ++ s.take count
    if hfull : buf.length = b.cap then
      -- full: written at once
      prints8 ⟨b.cap, [], b.chunks ++ [buf], Nat.lt_of_le_of_lt (Nat.zero_le _) b.room⟩ (s.drop count)
    else
      prints8 ⟨b.cap, buf, b.chunks, by
        have := b.room
        simp only [buf, count, avail, List.length_append, List.length_take] at hfull ⊢
        omega⟩ (s.drop count)
termination_by s.length
decreasing_by
  all_goals
    have h1 := List.length_pos_iff.mpr _h
    have h2 := b.room
    simp only [List.length_drop]
    omega

def printu8 (b : U8buf) (c : UInt8) : U8buf := prints8 b [c]

/-- Everything printed so far. -/
def U8buf.total (b : U8buf) : S8 := b.chunks.flatten ++ b.buf

theorem total_flush (b : U8buf) : (flush b).total = b.total ∧ (flush b).buf = [] := by
  refine ⟨?_, rfl⟩
  simp only [U8buf.total, flush]
  by_cases h : b.buf = [] <;> simp [h]

@[simp] theorem prints8_nil (b : U8buf) : prints8 b [] = b := by rw [prints8, dif_pos rfl]

/-- A string that leaves room is buffered. -/
theorem prints8_fits {cap : Nat} {buf s : S8} {chunks : List S8} (room : buf.length < cap)
    (h : (buf ++ s).length < cap) : prints8 ⟨cap, buf, chunks, room⟩ s = ⟨cap, buf ++ s, chunks, h⟩ := by
  by_cases hs : s = []
  · subst hs; simp
  · obtain ⟨hcount, hne⟩ := fits_count h
    rw [prints8, dif_neg hs]
    simp only [hcount, List.take_length, List.drop_length, List.length_append, hne, dif_neg, not_false_iff, prints8_nil]

/-- The bytes that fill the buffer are written, and what follows starts a new one. -/
theorem prints8_fills {cap : Nat} {buf u v : S8} {chunks : List S8} (room : buf.length < cap)
    (h : (buf ++ u).length = cap) :
    prints8 ⟨cap, buf, chunks, room⟩ (u ++ v) =
      prints8 ⟨cap, [], chunks ++ [buf ++ u], Nat.lt_of_le_of_lt (Nat.zero_le _) room⟩ v := by
  obtain ⟨hs, hcount⟩ := fills_count (v := v) room h
  rw [prints8, dif_neg hs]
  simp only [hcount, List.take_left, List.drop_left, h, dif_pos]

/-! ## As a buffer in front of a device -/

/-- The file, by the strings that were written to it. -/
def device (cap : Nat) (h : 0 < cap) : Device (List S8) UInt8 where
  cap := cap
  pos := h
  write := fun chunks b => chunks ++ [b]
  failed := fun _ => false

def ofBuffer {cap : Nat} {h : 0 < cap} (r : Buffer (device cap h)) : U8buf := ⟨cap, r.buf, r.dev, r.room⟩

theorem U8buf.pos (b : U8buf) : 0 < b.cap := Nat.lt_of_le_of_lt (Nat.zero_le _) b.room

def U8buf.buffer (b : U8buf) : Buffer (device b.cap b.pos) := ⟨b.buf, b.chunks, b.room⟩

theorem prints8_put {cap : Nat} {h : 0 < cap} (r : Buffer (device cap h)) (s : S8) :
    prints8 (ofBuffer r) s = ofBuffer (r.put s) := by
  induction r, s using Buffer.put_induction with
  | failed r s hdev => cases hdev
  | fits buf dev room s hdev hfits =>
    rw [Buffer.put_fits room hdev hfits]
    exact prints8_fits room hfits
  | fills buf dev room u v hdev hu ih =>
    rw [Buffer.put_fills room hdev hu]
    exact (prints8_fills room hu).trans ih

/-- Printing is putting. -/
theorem prints8_buffer (b : U8buf) (s : S8) : prints8 b s = ofBuffer (b.buffer.put s) := prints8_put b.buffer s

theorem total_prints8 (b : U8buf) (s : S8) : (prints8 b s).total = b.total ++ s := by
  rw [prints8_buffer]
  exact b.buffer.put_sent List.flatten (fun chunks b => by simp [device]) s rfl

/-- What was written is never empty, and never more than a buffer holds. -/
def U8buf.Pieces (b : U8buf) : Prop := ∀ c ∈ b.chunks, c ≠ [] ∧ c.length ≤ b.cap

theorem pieces_append {b : U8buf} {chunk : S8} (hb : b.Pieces) (hne : chunk ≠ []) (hle : chunk.length ≤ b.cap) :
    ∀ c ∈ b.chunks ++ [chunk], c ≠ [] ∧ c.length ≤ b.cap := by
  intro c hc
  rcases List.mem_append.mp hc with h | h
  · exact hb c h
  · obtain rfl := List.mem_singleton.mp h
    exact ⟨hne, hle⟩

theorem pieces_flush {b : U8buf} (hb : b.Pieces) : (flush b).Pieces := by
  by_cases h : b.buf = []
  · simpa only [U8buf.Pieces, flush, h, ne_eq, not_true_eq_false, if_false] using hb
  · simpa only [U8buf.Pieces, flush, h, ne_eq, not_false_eq_true, if_true] using
      pieces_append hb h (Nat.le_of_lt b.room)

theorem pieces_prints8 {b : U8buf} (hb : b.Pieces) (s : S8) : (prints8 b s).Pieces := by
  rw [prints8_buffer]
  refine b.buffer.put_keeps (P := fun chunks => ∀ c ∈ chunks, c ≠ [] ∧ c.length ≤ b.cap) ?_ s hb
  intro chunks chunk _ hfull hchunks c hc
  rcases List.mem_append.mp hc with h | h
  · exact hchunks c h
  · obtain rfl := List.mem_singleton.mp h
    have hcap : c.length = b.cap := hfull
    exact ⟨List.length_pos_iff.mp (hcap ▸ b.pos), Nat.le_of_eq hcap⟩

/-- Printing in pieces is printing the whole. -/
theorem prints8_append (b : U8buf) (s t : S8) : prints8 b (s ++ t) = prints8 (prints8 b s) t := by
  rw [prints8_buffer b s, prints8_put, prints8_buffer, Buffer.put_append]

end GnuWindows.PkgConfig
