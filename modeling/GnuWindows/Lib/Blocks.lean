/-
  GnuWindows.Lib.Blocks — a buffer in front of a device that takes blocks.

  `put` fills the buffer, hands it over when it is full, and goes on with what is left;
  `flush` hands over what there is. Once the device has failed nothing happens any more.

  Proved: what is put in pieces is put as a whole (`put_append`); what is sent and what is
  buffered is what was put (`put_sent`); what the device gets is the text cut into blocks,
  the last of them shorter (`flush_put`). So what a block does to the device tells what a
  text does (`feed_sent`, `feed_keeps`).
-/
import Mathlib.Tactic.Common

namespace GnuWindows.Lib.Blocks

variable {σ γ β : Type}

structure Device (σ γ : Type) where
  cap : Nat
  pos : 0 < cap
  write : σ → List γ → σ
  failed : σ → Bool

/-! ## Blocks of a text -/

def blocks (cap : Nat) (s : List γ) : List (List γ) :=
  if _h : 0 < cap ∧ s ≠ [] then s.take cap :: blocks cap (s.drop cap) else []
termination_by s.length
decreasing_by
  have := List.length_pos_iff.mpr _h.2
  rw [List.length_drop]
  omega

@[simp] theorem blocks_nil (cap : Nat) : blocks cap ([] : List γ) = [] := by rw [blocks, dif_neg (by simp)]

theorem blocks_cons {cap : Nat} (hcap : 0 < cap) {s : List γ} (hs : s ≠ []) :
    blocks cap s = s.take cap :: blocks cap (s.drop cap) := by rw [blocks, dif_pos ⟨hcap, hs⟩]

/-- Induction block by block. -/
theorem blocks_induction {cap : Nat} (hcap : 0 < cap) {P : List γ → Prop} (nil : P [])
    (cons : ∀ s, s ≠ [] → P (s.drop cap) → P s) (s : List γ) : P s := by
  induction s using blocks.induct cap with
  | case1 s h ih => exact cons s h.2 ih
  | case2 s h =>
    obtain rfl : s = [] := not_not.mp fun hs => h ⟨hcap, hs⟩
    exact nil

/-- A block and what follows it. -/
theorem blocks_append {cap : Nat} (hcap : 0 < cap) {s t : List γ} (hs : s.length = cap) :
    blocks cap (s ++ t) = s :: blocks cap t := by
  have hne : s ++ t ≠ [] := List.append_ne_nil_of_left_ne_nil (List.length_pos_iff.mp (hs ▸ hcap)) t
  rw [blocks_cons hcap hne, ← hs, List.take_left, List.drop_left]

theorem blocks_short {cap : Nat} {s : List γ} (hlt : s.length < cap) (hs : s ≠ []) : blocks cap s = [s] := by
  rw [blocks_cons (by omega) hs, List.take_of_length_le (by omega), List.drop_of_length_le (by omega), blocks_nil]

theorem flatten_blocks {cap : Nat} (hcap : 0 < cap) (s : List γ) : (blocks cap s).flatten = s := by
  induction s using blocks_induction hcap with
  | nil => rw [blocks_nil, List.flatten_nil]
  | cons s hs ih => rw [blocks_cons hcap hs, List.flatten_cons, ih, List.take_append_drop]

/-! ## What a device does with blocks -/

section

variable (D : Device σ γ)

/-- One block after the other, until the device fails. -/
def feed (d : σ) : List (List γ) → σ
  | [] => d
  | b :: bs => if D.failed d then d else feed (D.write d b) bs

variable {D} {d : σ}

theorem feed_failed (h : D.failed d = true) (bs : List (List γ)) : feed D d bs = d := by
  cases bs with
  | nil => rfl
  | cons b bs => rw [feed, if_pos h]

/-- What no block breaks holds in the end. -/
theorem feed_keeps {P : σ → Prop} (h : ∀ d b, P d → P (D.write d b)) (hd : P d) (bs : List (List γ)) :
    P (feed D d bs) := by
  induction bs generalizing d with
  | nil => exact hd
  | cons b bs ih =>
    rw [feed]
    split
    · exact hd
    · exact ih (h d b hd)

/-- A device that sends something for each block has sent it for all, unless it fails. -/
theorem feed_sent (sent : σ → List β) (f : List γ → List β)
    (h : ∀ d b, D.failed (D.write d b) = false → sent (D.write d b) = sent d ++ f b) {bs : List (List γ)}
    (hd : D.failed (feed D d bs) = false) : sent (feed D d bs) = sent d ++ bs.flatMap f := by
  induction bs generalizing d with
  | nil => exact (List.append_nil _).symm
  | cons b bs ih =>
    cases hfailed : D.failed d with
    | true =>
      rw [feed_failed hfailed, hfailed] at hd
      cases hd
    | false =>
      rw [feed, if_neg (by rw [hfailed]; exact Bool.false_ne_true)] at hd ⊢
      have hwrite : D.failed (D.write d b) = false := by
        cases hw : D.failed (D.write d b) with
        | true => rw [feed_failed hw, hw] at hd; cases hd
        | false => rfl
      rw [ih hd, h d b hwrite, List.flatMap_cons, List.append_assoc]

end

/-! ## The buffer -/

/-- What leaves room is taken whole. -/
theorem fits_count {cap : Nat} {buf s : List γ} (h : (buf ++ s).length < cap) :
    min (cap - buf.length) s.length = s.length ∧ buf.length + s.length ≠ cap := by
  rw [List.length_append] at h
  omega

/-- What fills the buffer is what is taken of a longer text. -/
theorem fills_count {cap : Nat} {buf u v : List γ} (room : buf.length < cap) (h : (buf ++ u).length = cap) :
    u ++ v ≠ [] ∧ min (cap - buf.length) (u ++ v).length = u.length := by
  rw [List.length_append] at h
  refine ⟨fun hnil => ?_, by rw [List.length_append]; omega⟩
  rw [(List.append_eq_nil_iff.mp hnil).1, List.length_nil] at h
  omega

structure Buffer (D : Device σ γ) where
  buf : List γ
  dev : σ
  room : buf.length < D.cap

namespace Buffer

variable {D : Device σ γ}

def empty (dev : σ) : Buffer D := ⟨[], dev, D.pos⟩

def put (b : Buffer D) (s : List γ) : Buffer D :=
  if _h : D.failed b.dev = false ∧ s ≠ [] then
    let avail := D.cap - b.buf.length
    let count := min avail s.length
    let buf := b.buf ++ s.take count
    if hfull : buf.length = D.cap then put ⟨[], D.write b.dev buf, D.pos⟩ (s.drop count)
    else
      put ⟨buf, b.dev, by
        have := b.room
        simp only [buf, count, avail, List.length_append, List.length_take] at hfull ⊢
        omega⟩ (s.drop count)
  else b
termination_by s.length
decreasing_by
  all_goals
    have h1 := List.length_pos_iff.mpr _h.2
    have h2 := b.room
    simp only [List.length_drop]
    omega

def flush (b : Buffer D) : Buffer D :=
  if D.failed b.dev = false ∧ b.buf ≠ [] then ⟨[], D.write b.dev b.buf, D.pos⟩ else b

@[simp] theorem put_nil (b : Buffer D) : b.put [] = b := by rw [put, dif_neg (by simp)]

theorem put_failed {b : Buffer D} (h : D.failed b.dev = true) (s : List γ) : b.put s = b := by
  rw [put, dif_neg (by simp [h])]

/-- What leaves room is buffered. -/
theorem put_fits {buf s : List γ} {dev : σ} (room : buf.length < D.cap) (hdev : D.failed dev = false)
    (h : (buf ++ s).length < D.cap) : put ⟨buf, dev, room⟩ s = ⟨buf ++ s, dev, h⟩ := by
  by_cases hs : s = []
  · subst hs
    simp
  · obtain ⟨hcount, hne⟩ := fits_count h
    rw [put, dif_pos ⟨hdev, hs⟩]
    simp only [hcount, List.take_length, List.drop_length, List.length_append, hne, dif_neg, not_false_iff, put_nil]

/-- What fills the buffer is handed over, and what follows starts a new one. -/
theorem put_fills {buf u v : List γ} {dev : σ} (room : buf.length < D.cap) (hdev : D.failed dev = false)
    (h : (buf ++ u).length = D.cap) : put ⟨buf, dev, room⟩ (u ++ v) =
      (empty (D.write dev (buf ++ u)) : Buffer D).put v := by
  obtain ⟨hs, hcount⟩ := fills_count (v := v) room h
  rw [put, dif_pos ⟨hdev, hs⟩]
  simp only [hcount, List.take_left, List.drop_left, h, dif_pos, empty]

/-- What does not leave room begins with what fills the buffer. -/
theorem exists_fills {buf s : List γ} (room : buf.length < D.cap) (h : ¬ (buf ++ s).length < D.cap) :
    ∃ u v, s = u ++ v ∧ (buf ++ u).length = D.cap := by
  refine ⟨s.take (D.cap - buf.length), s.drop _, (List.take_append_drop _ _).symm, ?_⟩
  simp only [List.length_append, List.length_take] at h ⊢
  omega

/-- Induction over what is put: nothing happens after a failure; otherwise it leaves room, or
    it begins with what fills the buffer. -/
theorem put_induction {P : Buffer D → List γ → Prop} (failed : ∀ b s, D.failed b.dev = true → P b s)
    (fits : ∀ buf dev room s, D.failed dev = false → (buf ++ s).length < D.cap → P ⟨buf, dev, room⟩ s)
    (fills : ∀ buf dev room u v, D.failed dev = false → (buf ++ u).length = D.cap →
      P (empty (D.write dev (buf ++ u))) v → P ⟨buf, dev, room⟩ (u ++ v)) (b : Buffer D) (s : List γ) : P b s := by
  induction hn : s.length using Nat.strongRecOn generalizing b s with
  | ind n ih =>
    cases hdev : D.failed b.dev with
    | true => exact failed b s hdev
    | false =>
      obtain ⟨buf, dev, room⟩ := b
      by_cases hfits : (buf ++ s).length < D.cap
      · exact fits buf dev room s hdev hfits
      · obtain ⟨u, v, rfl, hu⟩ := exists_fills room hfits
        refine fills buf dev room u v hdev hu (ih v.length ?_ _ v rfl)
        rw [← hn, List.length_append]
        rw [List.length_append] at hu
        omega

/-- What is put in pieces is put as a whole. -/
theorem put_append (b : Buffer D) (s t : List γ) : b.put (s ++ t) = (b.put s).put t := by
  induction b, s using put_induction with
  | failed b s hdev => rw [put_failed hdev, put_failed hdev, put_failed hdev]
  | fits buf dev room s hdev hfits =>
    rw [put_fits room hdev hfits]
    by_cases hall : (buf ++ s ++ t).length < D.cap
    · rw [put_fits hfits hdev hall, put_fits room hdev (by rwa [← List.append_assoc])]
      simp only [List.append_assoc]
    · -- the buffer is filled by `s` and the beginning of `t`
      obtain ⟨u, v, rfl, hu⟩ := exists_fills hfits hall
      rw [put_fills hfits hdev hu, ← List.append_assoc, put_fills room hdev (by rwa [← List.append_assoc])]
      simp only [List.append_assoc]
  | fills buf dev room u v hdev hu ih => rw [put_fills room hdev hu, List.append_assoc, put_fills room hdev hu, ih]

/-- What every write of a full block keeps while nothing has failed. -/
theorem put_keeps {P : σ → Prop} (h : ∀ d b, D.failed d = false → b.length = D.cap → P d → P (D.write d b))
    (b : Buffer D) (s : List γ) : P b.dev → P (b.put s).dev := by
  induction b, s using put_induction with
  | failed b s hdev => rw [put_failed hdev]; exact id
  | fits buf dev room s hdev hfits => rw [put_fits room hdev hfits]; exact id
  | fills buf dev room u v hdev hu ih =>
    rw [put_fills room hdev hu]
    exact fun hp => ih (h dev _ hdev hu hp)

/-- What is sent and what is buffered is the text, unless the device fails. -/
theorem put_sent (sent : σ → List γ) (h : ∀ d b, sent (D.write d b) = sent d ++ b) (b : Buffer D) (s : List γ) :
    D.failed (b.put s).dev = false → sent (b.put s).dev ++ (b.put s).buf = sent b.dev ++ b.buf ++ s := by
  induction b, s using put_induction with
  | failed b s hdev =>
    rw [put_failed hdev, hdev]
    intro hfalse
    cases hfalse
  | fits buf dev room s hdev hfits =>
    rw [put_fits room hdev hfits]
    exact fun _ => (List.append_assoc _ _ _).symm
  | fills buf dev room u v hdev hu ih =>
    rw [put_fills room hdev hu]
    intro hok
    rw [ih hok, empty, h]
    simp only [List.append_assoc, List.nil_append]

/-- What is sent comes first in what was put, also when the device fails. -/
theorem put_part (sent : σ → List γ) (h : ∀ d b, sent (D.write d b) = sent d ++ b) (b : Buffer D) (s : List γ) :
    sent (b.put s).dev <+: sent b.dev ++ b.buf ++ s := by
  induction b, s using put_induction with
  | failed b s hdev =>
    rw [put_failed hdev, List.append_assoc]
    exact List.prefix_append _ _
  | fits buf dev room s hdev hfits =>
    rw [put_fits room hdev hfits, List.append_assoc]
    exact List.prefix_append _ _
  | fills buf dev room u v hdev hu ih =>
    have hsent : sent (D.write dev (buf ++ u)) ++ [] ++ v = sent dev ++ buf ++ (u ++ v) := by
      rw [h]
      simp only [List.append_assoc, List.nil_append]
    rw [put_fills room hdev hu, ← hsent]
    exact ih

/-- The device gets the text in blocks. -/
theorem flush_put (b : Buffer D) (s : List γ) : (b.put s).flush.dev = feed D b.dev (blocks D.cap (b.buf ++ s)) := by
  induction b, s using put_induction with
  | failed b s hdev => rw [put_failed hdev, feed_failed hdev, flush, if_neg (by simp [hdev])]
  | fits buf dev room s hdev hfits =>
    rw [put_fits room hdev hfits, flush]
    by_cases hs : buf ++ s = []
    · rw [if_neg (by simp [hs])]
      show dev = feed D dev (blocks D.cap (buf ++ s))
      rw [hs, blocks_nil]
      rfl
    · rw [if_pos ⟨hdev, hs⟩, blocks_short hfits hs]
      exact (if_neg (by rw [hdev]; exact Bool.false_ne_true)).symm
  | fills buf dev room u v hdev hu ih =>
    rw [put_fills room hdev hu, ← List.append_assoc, blocks_append D.pos hu, feed,
      if_neg (by rw [hdev]; exact Bool.false_ne_true)]
    exact ih

end Buffer

end GnuWindows.Lib.Blocks
