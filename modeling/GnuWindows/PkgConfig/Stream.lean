/-
  GnuWindows.PkgConfig.Stream — the three kinds of buffers (`newfdbuf`, `newnullout`,
  `newmembuf`, `finalize`, `flush`, `prints8`, `printu8`).

  One loop serves them all. A full buffer is flushed: to a file it is written, in memory
  there is no more room, and nothing gets into a null buffer. A loop that goes on without
  taking a byte would never end, and is a fault here.

  Proved: after any calls, what was written to a file and what is buffered is what was
  printed, and memory holds it or ran out (`calls_prints`). A file's buffer is the one of
  `Buffer` (`prints8_file`), which carries that it is never left full.
-/
import GnuWindows.Lib.Scan
import GnuWindows.PkgConfig.Buffer

namespace GnuWindows.PkgConfig.Stream

open GnuWindows.Lib.Scan

inductive Fault where
  /-- The program ends with an error of its own. -/
  | oom
  /-- An assertion does not hold. -/
  | assertion
  /-- A loop would not end. -/
  | stuck
  /-- A value is not one of its type. -/
  | overflow
  /-- A pointer leaves its array. -/
  | outside
  deriving DecidableEq

structure U8buf where
  /-- The bytes up to `len`. -/
  buf : S8
  cap : Nat
  /-- 0 for memory, -1 for a null buffer. -/
  fd : Int
  /-- What `os_write` was called with, in order. -/
  chunks : List S8

def newfdbuf (fd : Int) (cap : Nat) : U8buf := ⟨[], cap, fd, []⟩

def newnullout : U8buf := ⟨[], 0, -1, []⟩

/-- The capacity is what is free in the arena. -/
def newmembuf (cap : Nat) : U8buf := ⟨[], cap, 0, []⟩

/-- The contents. -/
def finalize (b : U8buf) : Except Fault S8 := if b.fd = 0 then .ok b.buf else .error .assertion

def flush (b : U8buf) : Except Fault U8buf :=
  if b.fd = -1 then .ok { b with buf := [] }
  else if b.fd = 0 then .error .oom
  else .ok { b with buf := [], chunks := if b.buf ≠ [] then b.chunks ++ [b.buf] else b.chunks }

/-- How many bytes of the string are copied at the offset. -/
def count (b : U8buf) (s : S8) (off : Nat) : Nat :=
  let avail := b.cap - b.buf.length
  min avail (s.length - off)

def copied (b : U8buf) (s : S8) (off : Nat) : U8buf := { b with buf := b.buf ++ (s.drop off).take (count b s off) }

/-- A turn of the loop, at the offset. -/
def printturn (s : S8) (t : U8buf × Nat) : Except Fault ((U8buf × Nat) ⊕ U8buf) :=
  let (b, off) := t
  if off < s.length then do
    let filled ← if (copied b s off).buf.length = b.cap then flush (copied b s off) else pure (copied b s off)
    return .inl (filled, off + count b s off)
  else return .inr b

def prints8 (b : U8buf) (s : S8) : Except Fault U8buf :=
  if b.fd = -1 then .ok b
  else loop s.length Prod.snd .stuck (printturn s) (b, 0)

def printu8 (b : U8buf) (c : UInt8) : Except Fault U8buf := prints8 b [c]

/-! ## Calls -/

inductive Call where
  | prints8 (s : S8)
  | printu8 (c : UInt8)
  | flush
  deriving DecidableEq

def call (b : U8buf) : Call → Except Fault U8buf
  | .prints8 s => prints8 b s
  | .printu8 c => printu8 b c
  | .flush => flush b

def calls (b : U8buf) (cs : List Call) : Except Fault U8buf := cs.foldlM call b

/-- Everything that is printed. -/
def printed (cs : List Call) : S8 :=
  cs.flatMap fun
    | .prints8 s => s
    | .printu8 c => [c]
    | .flush => []

/-! ## A turn -/

theorem printturn_room {b : U8buf} {s : S8} {off : Nat} (h : off < s.length)
    (hroom : (copied b s off).buf.length ≠ b.cap) :
    printturn s (b, off) = .ok (.inl (copied b s off, off + count b s off)) := by
  rw [printturn, if_pos h, if_neg hroom]
  rfl

theorem printturn_full {b : U8buf} {s : S8} {off : Nat} (h : off < s.length)
    (hfull : (copied b s off).buf.length = b.cap) :
    printturn s (b, off) = (flush (copied b s off) >>= fun filled => .ok (.inl (filled, off + count b s off))) := by
  rw [printturn, if_pos h, if_pos hfull]
  rfl

theorem printturn_end {b : U8buf} {s : S8} {off : Nat} (h : ¬ off < s.length) : printturn s (b, off) = .ok (.inr b) :=
  if_neg h

/-! ## A file -/

/-- A buffer that is never left full, as one of a file. -/
def file (fd : Int) (b : PkgConfig.U8buf) : U8buf := ⟨b.buf, b.cap, fd, b.chunks⟩

variable {fd : Int}

theorem flush_file (hnull : fd ≠ -1) (hmem : fd ≠ 0) (b : PkgConfig.U8buf) :
    flush (file fd b) = .ok (file fd (PkgConfig.flush b)) :=
  (if_neg hnull).trans (if_neg hmem)

/-- The turns of the loop are those of the recursion, on what is left at the offset. -/
theorem printturn_goes (hnull : fd ≠ -1) (hmem : fd ≠ 0) (s : S8) (r r' : PkgConfig.U8buf) {off : Nat}
    (hrest : PkgConfig.prints8 r (s.drop off) = r') :
    Goes s.length Prod.snd (fun t => ∃ q, t.1 = file fd q ∧ PkgConfig.prints8 q (s.drop t.2) = r')
      (fun b => b = file fd r') (file fd r, off) (printturn s (file fd r, off)) := by
  by_cases h : off < s.length
  · have hne : s.drop off ≠ [] := by
      rw [← List.length_pos_iff, List.length_drop]
      omega
    have hcount : count (file fd r) s off = min (r.cap - r.buf.length) (s.drop off).length := by
      rw [List.length_drop]
      rfl
    have hroom := r.room
    have hpos : 0 < count (file fd r) s off ∧ off + count (file fd r) s off ≤ s.length := by
      rw [hcount, List.length_drop]
      omega
    rw [PkgConfig.prints8, dif_neg hne] at hrest
    simp only [List.drop_drop, ← hcount] at hrest
    by_cases hfull : (copied (file fd r) s off).buf.length = r.cap
    · have hsome : (copied (file fd r) s off).buf ≠ [] := by
        rw [← List.length_pos_iff, hfull]
        omega
      have hflush : flush (copied (file fd r) s off) =
          .ok ⟨[], r.cap, fd, r.chunks ++ [(copied (file fd r) s off).buf]⟩ := by
        refine (if_neg hnull).trans ((if_neg hmem).trans ?_)
        rw [if_pos hsome]
        rfl
      rw [dif_pos (show (r.buf ++ (s.drop off).take (count (file fd r) s off)).length = r.cap from hfull)] at hrest
      rw [printturn_full h hfull, hflush]
      exact .next (Nat.lt_add_of_pos_right hpos.1) hpos.2 ⟨_, rfl, hrest⟩
    · rw [dif_neg (show ¬ (r.buf ++ (s.drop off).take (count (file fd r) s off)).length = r.cap from hfull)] at hrest
      rw [printturn_room h hfull]
      exact .next (Nat.lt_add_of_pos_right hpos.1) hpos.2 ⟨_, rfl, hrest⟩
  · rw [List.drop_of_length_le (Nat.le_of_not_lt h), prints8_nil] at hrest
    rw [printturn_end h]
    exact .stop (by rw [hrest])

/-- A file's buffer never stands still, and is the one that is never left full. -/
theorem prints8_file (hnull : fd ≠ -1) (hmem : fd ≠ 0) (b : PkgConfig.U8buf) (s : S8) :
    prints8 (file fd b) s = .ok (file fd (PkgConfig.prints8 b s)) := by
  have hloop : ∃ r, loop s.length Prod.snd .stuck (printturn s) (file fd b, 0) = .ok r ∧
      r = file fd (PkgConfig.prints8 b s) := by
    refine loop_ends (I := fun t => ∃ q, t.1 = file fd q ∧ PkgConfig.prints8 q (s.drop t.2) = PkgConfig.prints8 b s)
      ?_ ⟨b, rfl, rfl⟩
    rintro ⟨r, off⟩ ⟨q, hq, hrest⟩
    obtain rfl : r = file fd q := hq
    exact printturn_goes hnull hmem s q _ hrest
  obtain ⟨r, hr, rfl⟩ := hloop
  exact (if_neg hnull).trans hr

/-- What a call leaves, of what was printed before. -/
theorem call_file (hnull : fd ≠ -1) (hmem : fd ≠ 0) (b : PkgConfig.U8buf) (c : Call) :
    ∃ q, call (file fd b) c = .ok (file fd q) ∧ q.cap = b.cap ∧ q.total = b.total ++ printed [c] ∧
      (b.Pieces → q.Pieces) := by
  have hprints (s : S8) : ∃ q, prints8 (file fd b) s = .ok (file fd q) ∧ q.cap = b.cap ∧ q.total = b.total ++ s ∧
      (b.Pieces → q.Pieces) := by
    refine ⟨_, prints8_file hnull hmem b s, ?_, total_prints8 b s, fun hb => pieces_prints8 hb s⟩
    rw [prints8_buffer]
    rfl
  cases c with
  | prints8 s =>
    rw [show printed [.prints8 s] = s from List.flatMap_singleton _ _]
    exact hprints s
  | printu8 c => exact hprints [c]
  | flush =>
    refine ⟨_, flush_file hnull hmem b, rfl, ?_, pieces_flush⟩
    rw [(total_flush b).1]
    exact (List.append_nil _).symm

/-- Nothing is lost, and nothing is written twice. -/
theorem calls_file (hnull : fd ≠ -1) (hmem : fd ≠ 0) (b : PkgConfig.U8buf) (cs : List Call) :
    ∃ q, calls (file fd b) cs = .ok (file fd q) ∧ q.cap = b.cap ∧ q.total = b.total ++ printed cs ∧
      (b.Pieces → q.Pieces) := by
  induction cs generalizing b with
  | nil => exact ⟨b, rfl, rfl, (List.append_nil _).symm, id⟩
  | cons c cs ih =>
    obtain ⟨q, hq, hcap, htotal, hpieces⟩ := call_file hnull hmem b c
    obtain ⟨r, hr, hcap', htotal', hpieces'⟩ := ih q
    refine ⟨r, ?_, hcap'.trans hcap, ?_, hpieces' ∘ hpieces⟩
    · rw [calls, List.foldlM_cons, hq]
      exact hr
    · rw [htotal', htotal, List.append_assoc, ← List.singleton_append (l := cs), printed, printed, printed,
        List.flatMap_append]

/-! ## Memory -/

theorem flush_memory {b : U8buf} (hfd : b.fd = 0) : flush b = .error .oom := by
  rw [flush, if_neg (by omega), if_pos hfd]

/-- The string leaves room in memory, or there is nothing to put there. -/
def Fits (b : U8buf) (s : S8) : Prop := s = [] ∨ (b.buf ++ s).length < b.cap

instance (b : U8buf) (s : S8) : Decidable (Fits b s) := inferInstanceAs (Decidable (_ ∨ _))

theorem fits_append (b : U8buf) (s t : S8) : Fits b (s ++ t) ↔ Fits b s ∧ Fits { b with buf := b.buf ++ s } t := by
  have hassoc : b.buf ++ (s ++ t) = b.buf ++ s ++ t := (List.append_assoc _ _ _).symm
  rw [Fits, Fits, Fits, hassoc, List.append_eq_nil_iff]
  constructor
  · rintro (⟨rfl, rfl⟩ | hlt)
    · exact ⟨.inl rfl, .inl rfl⟩
    · rw [List.length_append] at hlt
      exact ⟨.inr (by omega), .inr (by rw [List.length_append]; exact hlt)⟩
  · rintro ⟨hs, rfl | hlt⟩
    · rw [List.append_nil]
      exact hs.imp_left fun hnil => ⟨hnil, rfl⟩
    · exact .inr hlt

theorem prints8_memory {b : U8buf} (hfd : b.fd = 0) (hle : b.buf.length ≤ b.cap) (s : S8) :
    prints8 b s = if Fits b s then .ok { b with buf := b.buf ++ s } else .error .oom := by
  rw [prints8, if_neg (by omega)]
  by_cases hs : s = []
  · subst hs
    have hfits : Fits b [] := .inl rfl
    rw [loop_stop (printturn_end (by simp)), if_pos hfits, List.append_nil]
  · have hpos : 0 < s.length := List.length_pos_iff.mpr hs
    by_cases hroom : (b.buf ++ s).length < b.cap
    · have hcount : count b s 0 = s.length := by
        rw [List.length_append] at hroom
        simp only [count]
        omega
      have hcopied : copied b s 0 = { b with buf := b.buf ++ s } := by
        rw [copied, hcount, List.drop_zero, List.take_length]
      have hturn : printturn s (b, 0) = .ok (.inl ({ b with buf := b.buf ++ s }, s.length)) := by
        rw [printturn_room hpos (by rw [hcopied]; exact Nat.ne_of_lt hroom), hcopied, hcount, Nat.zero_add]
      have hfits : Fits b s := .inr hroom
      rw [if_pos hfits, loop_next hturn (by exact hpos) (by exact Nat.le_refl _),
        loop_stop (printturn_end (Nat.lt_irrefl _))]
    · have hfull : (copied b s 0).buf.length = b.cap := by
        rw [List.length_append] at hroom
        simp only [copied, count, List.drop_zero, List.length_append, List.length_take]
        omega
      have hturn : printturn s (b, 0) = .error .oom := by
        have hflush : flush (copied b s 0) = .error .oom := flush_memory hfd
        rw [printturn_full hpos hfull, hflush]
        rfl
      have hnot : ¬ Fits b s := not_or.mpr ⟨hs, hroom⟩
      rw [if_neg hnot, loop_fails hturn]

theorem call_memory {b : U8buf} (hfd : b.fd = 0) (hle : b.buf.length ≤ b.cap) {c : Call} (hc : c ≠ .flush) :
    call b c = if Fits b (printed [c]) then .ok { b with buf := b.buf ++ printed [c] } else .error .oom := by
  cases c with
  | prints8 s =>
    rw [show printed [.prints8 s] = s from List.flatMap_singleton _ _]
    exact prints8_memory hfd hle s
  | printu8 c => exact prints8_memory hfd hle [c]
  | flush => exact absurd rfl hc

theorem printed_cons (c : Call) (cs : List Call) : printed (c :: cs) = printed [c] ++ printed cs := by
  rw [← List.singleton_append, printed, List.flatMap_append, printed, printed]

/-- The memory is full when as much was printed. -/
theorem calls_memory {b : U8buf} (hfd : b.fd = 0) (hle : b.buf.length ≤ b.cap) (cs : List Call) :
    calls b cs = if Call.flush ∉ cs ∧ Fits b (printed cs) then .ok { b with buf := b.buf ++ printed cs }
      else .error .oom := by
  induction cs generalizing b with
  | nil =>
    have hnil : b.buf ++ printed [] = b.buf := List.append_nil _
    rw [hnil, if_pos ⟨List.not_mem_nil, .inl rfl⟩]
    rfl
  | cons c cs ih =>
    rw [calls, List.foldlM_cons, printed_cons, ← List.append_assoc]
    by_cases hc : c = .flush
    · subst hc
      rw [if_neg (fun hn => hn.1 List.mem_cons_self), call, flush_memory hfd]
      rfl
    · rw [call_memory hfd hle hc]
      by_cases hfits : Fits b (printed [c])
      · have hle' : (b.buf ++ printed [c]).length ≤ b.cap := by
          rcases hfits with hnil | hlt
          · rwa [hnil, List.append_nil]
          · exact Nat.le_of_lt hlt
        rw [if_pos hfits]
        refine (ih (b := { b with buf := b.buf ++ printed [c] }) hfd hle').trans (if_congr ?_ rfl rfl)
        rw [List.mem_cons, not_or, and_iff_right (Ne.symm hc), fits_append, and_iff_right hfits]
      · rw [if_neg hfits, if_neg (fun hn => hfits ((fits_append b _ _).mp hn.2).1)]
        rfl

/-! ## Every run of calls -/

/-- What was written to a file and what is still buffered is what was printed, in pieces of
    the capacity at most, and the buffer is never left full; memory holds what was printed, or
    there is too much of it. -/
theorem calls_prints {cap : Nat} (hcap : 0 < cap) (cs : List Call) :
    (∀ fd : Int, fd ≠ -1 → fd ≠ 0 → ∃ b, calls (newfdbuf fd cap) cs = .ok b ∧
      b.chunks.flatten ++ b.buf = printed cs ∧ (∀ c ∈ b.chunks, c ≠ [] ∧ c.length ≤ cap) ∧ b.buf.length < cap) ∧
    (calls (newmembuf cap) cs >>= finalize) =
      if Call.flush ∉ cs ∧ (printed cs).length < cap then .ok (printed cs) else .error .oom := by
  constructor
  · intro fd hnull hmem
    obtain ⟨q, hq, rfl, htotal, hpieces⟩ := calls_file hnull hmem (PkgConfig.newfdbuf cap hcap) cs
    exact ⟨file fd q, hq, htotal, hpieces (fun c hc => absurd hc List.not_mem_nil), q.room⟩
  · have hfits : Fits (newmembuf cap) (printed cs) ↔ (printed cs).length < cap := by
      refine or_iff_right_of_imp fun hnil => ?_
      rw [hnil]
      exact hcap
    rw [calls_memory rfl (Nat.zero_le _), if_congr (and_congr_right fun _ => hfits) rfl rfl]
    split
    · rfl
    · rfl

/-- Three bytes take two turns of a buffer of two, and are too many for the memory. -/
theorem calls_prints_turns :
    (∃ b, calls (newfdbuf 1 2) [.prints8 [1, 2, 3]] = .ok b ∧ b.chunks.flatten ++ b.buf = [1, 2, 3] ∧
      (∀ c ∈ b.chunks, c ≠ [] ∧ c.length ≤ 2) ∧ b.buf.length < 2) ∧
    (calls (newmembuf 2) [.prints8 [1, 2, 3]] >>= finalize) = .error .oom := by
  obtain ⟨hfile, hmemory⟩ := calls_prints (show 0 < 2 by decide) [.prints8 [1, 2, 3]]
  exact ⟨hfile 1 (by decide) (by decide), hmemory⟩

end GnuWindows.PkgConfig.Stream
