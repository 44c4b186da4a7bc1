/-
  GnuWindows.Peports.Posix — the platform layer outside Windows (`osload`, `oswrite`).

  `open` and `read` are what `createfile` and `readfile` are on Windows. Here the loader asks
  for all that may be filled, there for 2 MiB at most, and there it needs room for the path in
  UTF-16 first. A write may take a part of the chunk, so that `oswrite` goes on with the rest.

  Proved:
  - `osload_agree`: both loaders give the same (`Fetches`), once there is that room.
  - `peports_delivers`: what is taken of the output comes first in it, with nothing twice, and
    is all of it when the status is success.
-/
import GnuWindows.Lib.Transfer
import GnuWindows.Peports.ExportTable
import GnuWindows.Peports.Status

namespace GnuWindows.Peports.Posix

open GnuWindows.Lib.Hoare (Comp)
open GnuWindows.Lib.Transfer
open GnuWindows.PkgConfig (S8 S)

/-! ## Loading -/

section

variable {World : Type}

/-- What is open under a path. -/
def source (os : Os World) (path : S8) : Source World UInt8 :=
  ⟨fun w n => os.readfile w path n, fun w n => os.readfile_le w path n⟩

variable (os : Os World)

/-- From the descriptor to the end of `osload`. -/
def load (a : Arena) (path : S8) (w : World) : Pe (Slice × Arena) × World :=
  let r := collect (source os path) id a.avail w
  (pure (some r.1, ⟨a.beg + r.1.length, a.fin, by
    have h1 : r.1.length ≤ a.avail := collect_le Nat.le_refl a.avail w
    have h2 := a.le
    unfold Arena.avail at h1
    omega, a.fits⟩), r.2)

def osload (w : World) (a : Arena) (path : S8) : Pe (Slice × Arena) × World :=
  if path = S "-" then load os a path w
  else
    match os.createfile w path with
    | (false, w) => (pure (none, a), w)
    | (true, w) => load os a path w

variable {os} {left : World → S8} {path : S8}

/-- The loop on Windows, which makes one more call at the end of the room. -/
theorem readall_collect (hread : Delivers (source os path) left) (avail : Nat) (w : World) :
    (readall os path avail w).1 = (collect (source os path) (truncsize · (1 <<< 21)) avail w).1 ∧
      left (readall os path avail w).2 = left (collect (source os path) (truncsize · (1 <<< 21)) avail w).2 := by
  induction avail, w using readall.induct os path with
  | case1 avail w r h =>
    have hnil : r.1 = [] := List.length_eq_zero_iff.mp (Nat.lt_one_iff.mp h)
    have horder : left w = r.1 ++ left r.2 := hread.order w (truncsize avail (1 <<< 21))
    rw [readall, dif_pos h, collect]
    split
    · show [] = Prod.fst (if _ : r.1.length < 1 then _ else _) ∧
        left r.2 = left (Prod.snd (if _ : r.1.length < 1 then _ else _))
      rw [dif_pos h]
      exact ⟨rfl, rfl⟩
    · rw [hnil, List.nil_append] at horder
      exact ⟨rfl, horder.symm⟩
  | case2 avail w r h ih =>
    have hle : r.1.length ≤ truncsize avail (1 <<< 21) := os.readfile_le w path _
    have htrunc := truncsize_le avail (1 <<< 21)
    rw [readall, dif_neg h, collect, if_pos (by omega)]
    show r.1 ++ _ = Prod.fst (if _ : r.1.length < 1 then _ else _) ∧
      left (readall os path (avail - r.1.length) r.2).2 = left (Prod.snd (if _ : r.1.length < 1 then _ else _))
    rw [dif_neg h]
    exact ⟨congrArg (r.1 ++ ·) ih.1, ih.2⟩

variable (os left path) in
/-- What a loader gives of a path: nothing if it is not opened, and else the contents as far
    as they may fill the arena, which is seven eighths of it. It takes as much of the arena,
    and leaves the rest of a larger file unread without an error. -/
def Fetches (w : World) (a : Arena) (r : Pe (Slice × Arena) × World) : Prop :=
  let opened := if path = S "-" then (true, w) else os.createfile w path
  if opened.1 then
    ∃ a' : Arena, r.1 = pure (some ((left opened.2).take a.avail), a') ∧
      a'.beg = a.beg + min a.avail (left opened.2).length ∧ a'.fin = a.fin ∧
      left r.2 = (left opened.2).drop a.avail
  else r = (pure (none, a), opened.2)

/-- The arena behind what was filled. -/
theorem exists_arena (a : Arena) (s : S8) :
    ∃ a' : Arena, a'.beg = a.beg + (s.take a.avail).length ∧ a'.fin = a.fin := by
  have hle := a.le
  have hlen : (s.take a.avail).length ≤ a.fin - a.beg := by
    rw [List.length_take]
    unfold Arena.avail
    omega
  exact ⟨⟨a.beg + (s.take a.avail).length, a.fin, by omega, a.fits⟩, rfl, rfl⟩

/-- An arena is where it begins and ends. -/
theorem arena_ext {a b : Arena} (hbeg : a.beg = b.beg) (hfin : a.fin = b.fin) : a = b := by
  obtain ⟨beg, fin, _, _⟩ := a
  obtain ⟨beg', fin', _, _⟩ := b
  obtain rfl : beg = beg' := hbeg
  obtain rfl : fin = fin' := hfin
  rfl

theorem load_eq (hread : Delivers (source os path) left) (a : Arena) (w : World) :
    ∃ a' : Arena, (load os a path w).1 = pure (some ((left w).take a.avail), a') ∧
      a'.beg = a.beg + min a.avail (left w).length ∧ a'.fin = a.fin ∧
      left (load os a path w).2 = (left w).drop a.avail := by
  have hcollect : (collect (source os path) id a.avail w).1 = (left w).take a.avail ∧
      left (collect (source os path) id a.avail w).2 = (left w).drop a.avail :=
    collect_eq Nat.le_refl hread (fun _ => id) a.avail w
  obtain ⟨a', hbeg, hfin⟩ := exists_arena a (left w)
  refine ⟨a', ?_, by rw [hbeg, List.length_take], hfin, hcollect.2⟩
  unfold load
  simp only [hcollect.1]
  exact congrArg (fun a => pure (some _, a)) (arena_ext hbeg.symm hfin.symm)

theorem windows_load_eq (hread : Delivers (source os path) left) (a : Arena) (w : World) :
    ∃ a' : Arena, (a.load os path w).1 = pure (some ((left w).take a.avail), a') ∧
      a'.beg = a.beg + min a.avail (left w).length ∧ a'.fin = a.fin ∧
      left (a.load os path w).2 = (left w).drop a.avail := by
  obtain ⟨hsame, hleft⟩ := readall_collect hread a.avail w
  have hpos : ∀ n, 0 < n → 0 < truncsize n (1 <<< 21) := fun n hn => by
    unfold truncsize
    split
    · decide
    · exact hn
  have hcollect := collect_eq (fun n => truncsize_le n (1 <<< 21)) hread hpos a.avail w
  obtain ⟨a', hbeg, hfin⟩ := exists_arena a (left w)
  refine ⟨a', ?_, by rw [hbeg, List.length_take], hfin, hleft.trans hcollect.2⟩
  unfold Arena.load
  simp only [hsame.trans hcollect.1]
  exact congrArg (fun a => pure (some _, a)) (arena_ext hbeg.symm hfin.symm)

theorem osload_fetches (hread : Delivers (source os path) left) (a : Arena) (w : World) :
    Fetches os left path w a (osload os w a path) := by
  unfold Fetches osload
  by_cases hstdin : path = S "-"
  · simp only [if_pos hstdin, if_true]
    exact load_eq hread a w
  · simp only [if_neg hstdin]
    cases os.createfile w path with
    | mk found w =>
      cases found with
      | false => rfl
      | true => exact load_eq hread a w

/-- There is room for the path in UTF-16, or it is the one that is not opened. -/
def Fits (os : Os World) (a : Arena) (path : S8) : Prop :=
  path = S "-" ∨ path.length < 0x80000000 ∧ ∃ a', alloc a (os.widelen path + 1) 2 2 = pure a'

theorem windows_osload_fetches (hread : Delivers (source os path) left) {a : Arena} (hfits : Fits os a path)
    (w : World) : Fetches os left path w a (Peports.osload os w a path) := by
  unfold Fetches Peports.osload
  by_cases hstdin : path = S "-"
  · simp only [if_pos hstdin, if_true]
    exact windows_load_eq hread a w
  · obtain ⟨hlen, a', halloc⟩ := hfits.resolve_left hstdin
    have hrun : ((alloc a (os.widelen path + 1) 2 2).run newu8buf).1 = .ok a' := by
      rw [halloc]
      rfl
    simp only [if_neg hstdin, if_neg (Nat.not_le.mpr hlen), hrun]
    cases os.createfile w path with
    | mk found w =>
      cases found with
      | false => rfl
      | true => exact windows_load_eq hread a w

/-- For every path, whether it is opened or not, with contents that are read in order, in
    pieces of any sizes that are not empty before the end: the loaders of both platforms give
    the same, on Windows once there is room for the path in UTF-16; without it nothing is
    opened, and memory is out. -/
theorem osload_agree (hread : Delivers (source os path) left) (a : Arena) (w : World) :
    Fetches os left path w a (osload os w a path) ∧
    (Fits os a path → Fetches os left path w a (Peports.osload os w a path)) ∧
    (path.length < 0x80000000 → ¬ Fits os a path →
      Peports.osload os w a path = (throw (.throw (S "out of memory")), w)) := by
  refine ⟨osload_fetches hread a w, fun hfits => windows_osload_fetches hread hfits w, fun hlen hnot => ?_⟩
  have hstdin : path ≠ S "-" := fun h => hnot (Or.inl h)
  have hthrow : alloc a (os.widelen path + 1) 2 2 = throws "out of memory" := by
    by_contra hroom
    refine hnot (Or.inr ⟨hlen, ?_⟩)
    unfold alloc at hroom ⊢
    rw [dif_neg (by omega)] at hroom ⊢
    split at hroom
    · exact absurd rfl hroom
    · exact ⟨_, by rw [dif_neg ‹_›]⟩
  have hrun : ((alloc a (os.widelen path + 1) 2 2).run newu8buf).1 = .error (.throw (S "out of memory")) := by
    rw [hthrow]
    rfl
  unfold Peports.osload
  simp only [if_neg hstdin, if_neg (Nat.not_le.mpr hlen), hrun]

/-- One file, of which a call gives some bytes. -/
def inpieces (n : Nat) : Os S8 :=
  ⟨List.length, fun w _ => (true, w), fun w _ m => (ofText fun _ _ => n).read w m,
    fun w _ m => (ofText fun _ _ => n).read_le w m⟩

theorem inpieces_delivers {n : Nat} (h : 0 < n) (path : S8) : Delivers (source (inpieces n) path) id :=
  ofText_delivers fun _ _ _ => h

/-- Ten bytes, into an arena of eight. -/
theorem osload_agree_tenbytes : ∃ a' : Arena,
    (osload (inpieces 2) (S "0123456789") ⟨0, 8, by decide, by decide⟩ (S "x")).1 = pure (some (S "0123456"), a') ∧
    (Peports.osload (inpieces 2) (S "0123456789") ⟨0, 8, by decide, by decide⟩ (S "x")).1 =
      pure (some (S "0123456"), a') ∧ a'.beg = 7 := by
  have hroom : Fits (inpieces 2) ⟨0, 8, by decide, by decide⟩ (S "x") :=
    Or.inr ⟨by decide, ⟨4, 8, by decide, by decide⟩, rfl⟩
  obtain ⟨hposix, hwindows, -⟩ := osload_agree (inpieces_delivers Nat.two_pos (S "x")) ⟨0, 8, by decide, by decide⟩
    (S "0123456789")
  obtain ⟨a, hloaded, hbeg, hfin, -⟩ := hposix
  obtain ⟨a', hloaded', hbeg', hfin', -⟩ := hwindows hroom
  obtain rfl := arena_ext (hbeg'.trans hbeg.symm) (hfin'.trans hfin.symm)
  exact ⟨_, hloaded, hloaded', hbeg⟩

/-- What is loaded is of the size that is loaded at most. -/
theorem osload_loaded {scratch : Arena} (h : scratch.fin - scratch.beg ≤ 0x20000000) (path : S8) (w : World) :
    Loaded (osload os w scratch path).1 := by
  have hload (w : World) : Loaded (load os scratch path w).1 := by
    refine ⟨.ok _, rfl, fun dll hdll => ?_⟩
    obtain rfl := Option.some.inj hdll
    have hle : (collect (source os path) id scratch.avail w).1.length ≤ scratch.avail :=
      collect_le Nat.le_refl scratch.avail w
    have havail : scratch.avail ≤ 0x1c000000 := by
      unfold Arena.avail
      omega
    exact hle.trans havail
  unfold osload
  split
  · exact hload w
  · split
    · exact ⟨.ok (none, scratch), rfl, fun dll hdll => nomatch hdll⟩
    · exact hload _

end

/-! ## Writing -/

section

variable {σ : Type} (W : Drain σ UInt8) (d : σ)

/-- The loop over the parts of a chunk, after those that were written before. -/
def oswrite (before : List S8) (buf : S8) : Bool := (deliver W (delivers W d before).2 buf).1

variable {W d}

theorem delivers_snoc {chunks : List S8} (chunk : S8) (h : (delivers W d chunks).1 = true) :
    delivers W d (chunks ++ [chunk]) = deliver W (delivers W d chunks).2 chunk := by
  induction chunks generalizing d with
  | nil =>
    rw [List.nil_append, delivers, delivers]
    cases deliver W d chunk with
    | mk ok s => cases ok <;> rfl
  | cons c chunks ih =>
    rw [delivers] at h
    rw [List.cons_append, delivers, delivers]
    cases hc : deliver W d c with
    | mk ok s =>
      rw [hc] at h
      cases ok with
      | false => cases h
      | true => exact ih h

/-- All chunks are delivered when no write fails. -/
theorem delivers_allwritten {chunks : List S8} (h : Allwritten (oswrite W d) chunks) :
    (delivers W d chunks).1 = true := by
  induction chunks using List.reverseRecOn with
  | nil => rfl
  | append_singleton chunks chunk ih =>
    obtain ⟨hall, hlast⟩ := allwritten_snoc.mp h
    rw [delivers_snoc chunk (ih hall)]
    exact hlast

/-! What is written comes first in what is printed -/

theorem chunks_prints8 (oswrite : List S8 → S8 → Bool) (b : U8buf) (s : S8) :
    (prints8 oswrite b s).chunks.flatten <+: b.total ++ s := by
  rw [prints8_buffer]
  exact (b.buffer oswrite).put_part (fun d => d.1.flatten) (fun d b => by simp [device]) s

/-- A text has been printed: what is written comes first in it, and what is buffered next
    unless there is an error. -/
structure Lists (text : S8) (b : U8buf) : Prop where
  part : b.chunks.flatten <+: text
  all : b.err = false → b.total = text

theorem Lists.prints8 {oswrite : List S8 → S8 → Bool} {text : S8} {b : U8buf} (h : Lists text b) (s : S8) :
    Lists (text ++ s) (prints8 oswrite b s) := by
  cases herr : b.err with
  | true =>
    rw [prints8_err oswrite herr]
    refine ⟨h.part.trans (List.prefix_append _ _), fun hok => ?_⟩
    rw [herr] at hok
    cases hok
  | false =>
    rw [← h.all herr]
    exact ⟨chunks_prints8 oswrite b s, total_prints8 oswrite⟩

theorem Lists.flush {oswrite : List S8 → S8 → Bool} {text : S8} {b : U8buf} (h : Lists text b) :
    Lists text (flush oswrite b) := by
  by_cases hmore : b.err = false ∧ b.buf ≠ []
  · have htotal : (Peports.flush oswrite b).chunks.flatten = text := by
      rw [Peports.flush, if_pos hmore, List.flatten_append, List.flatten_singleton]
      exact h.all hmore.1
    refine ⟨htotal ▸ List.prefix_rfl, fun hok => ?_⟩
    rw [(flush_ok hok).2.2]
    exact h.all hmore.1
  · rw [Peports.flush, if_neg hmore]
    exact h

theorem Lists.files {oswrite : List S8 → S8 → Bool} (outcomes : List (Except Fault Unit × S8)) {text : S8} {b : U8buf}
    (h : Lists text b) : Lists (text ++ (outcomes.map Prod.snd).flatten) (outcomes.foldl (printed oswrite) b) := by
  induction outcomes generalizing text b with
  | nil => simpa using h
  | cons o outcomes ih =>
    rw [List.map_cons, List.flatten_cons, ← List.append_assoc]
    refine ih ?_
    unfold printed
    split
    · exact h.prints8 o.2
    · exact (h.prints8 o.2).flush

theorem lists_newu8buf : Lists [] newu8buf := ⟨List.nil_prefix, fun _ => rfl⟩

variable (d) in
/-- What a descriptor has taken of a text that is printed and flushed. -/
theorem flushed_delivers {taken : σ → S8} (hW : W.Takes taken) {text : S8} {b : U8buf} (h : Lists text b)
    (htracked : b.Tracked (oswrite W d)) :
    ∃ part, part <+: text ∧ taken (delivers W d (flush (oswrite W d) b).chunks).2 = taken d ++ part ∧
      ((flush (oswrite W d) b).err = false → part = text) := by
  have hlists : Lists text (flush (oswrite W d) b) := h.flush
  obtain ⟨n, htaken, hall⟩ := delivers_taken hW d (flush (oswrite W d) b).chunks
  refine ⟨_, (List.take_prefix n _).trans hlists.part, htaken, fun herr => ?_⟩
  have hwritten := (flush_tracked htracked).mp herr
  have htotal := hlists.all herr
  rw [U8buf.total, (flush_ok herr).2.1, List.append_nil] at htotal
  rw [List.take_of_length_le (hall (delivers_allwritten hwritten)), htotal]

/-! Options -/

/-- The options are read without output, or end with the usage. -/
def Helps (oswrite : List S8 → S8 → Bool) (r : Cmdconfig × Optstatus) : Prop :=
  (r.1.out = newu8buf ∧ r.2 ≠ .EXIT) ∨
    (r.1.out = flush oswrite (prints8 oswrite newu8buf usage) ∧ r.2 = if r.1.out.err then .ERR else .EXIT)

section

variable (oswrite oswrite₂ : List S8 → S8 → Bool)

theorem parsechars_helps (chars : S8) {c : Cmdconfig} (h : c.out = newu8buf) :
    Helps oswrite (parsechars oswrite oswrite₂ chars c) := by
  induction chars generalizing c with
  | nil => exact .inl ⟨h, Optstatus.noConfusion⟩
  | cons x chars ih =>
    unfold parsechars
    split
    · exact ih h
    · split
      · exact .inr ⟨by rw [h], rfl⟩
      · split
        · exact ih h
        · exact .inl ⟨h, Optstatus.noConfusion⟩

theorem parseargs_helps (args : List S8) {c : Cmdconfig} (h : c.out = newu8buf) :
    Helps oswrite (parseargs oswrite oswrite₂ args c) := by
  induction args generalizing c with
  | nil => exact .inl ⟨h, Optstatus.noConfusion⟩
  | cons arg args ih =>
    unfold parseargs
    split
    · rename_i chars
      have hchars := parsechars_helps oswrite oswrite₂ chars h
      split
      · rename_i c' hrun
        rw [hrun] at hchars
        rcases hchars with ⟨hout, -⟩ | ⟨-, hstatus⟩
        · exact ih hout
        · simp only at hstatus
          split at hstatus <;> cases hstatus
      · exact hchars
    · exact .inl ⟨h, Optstatus.noConfusion⟩

theorem parsed_helps (argv : List S8) : Helps oswrite (parsed oswrite oswrite₂ argv) := by
  have hrun := parseargs_helps oswrite oswrite₂ (argv.drop (if argv.length = 0 then 0 else 1))
    (c := ⟨newu8buf, newu8buf, if argv.length = 0 then 0 else 1, false, false⟩) rfl
  unfold parsed parseopts
  simp only
  split
  · rename_i c hc
    rw [hc] at hrun
    rcases hrun with ⟨hout, -⟩ | ⟨-, hstatus⟩
    · left
      show (if (!c.imports && !c.exports) = true then { c with imports := true, exports := true } else c).out =
        newu8buf ∧ _
      split
      · exact ⟨hout, Optstatus.noConfusion⟩
      · exact ⟨hout, Optstatus.noConfusion⟩
    · simp only at hstatus
      split at hstatus <;> cases hstatus
  · exact hrun

/-- The options are accepted without output. -/
theorem parsed_out {argv : List S8} (h : (parsed oswrite oswrite₂ argv).2 = .OK) :
    (parsed oswrite oswrite₂ argv).1.out = newu8buf := by
  rcases parsed_helps oswrite oswrite₂ argv with ⟨hout, -⟩ | ⟨-, hend⟩
  · exact hout
  · rw [h] at hend
    split at hend <;> cases hend

end

/-- What a descriptor has taken when the options are read: none of the usage, some or all. -/
theorem usage_delivers (d : σ) {taken : σ → S8} (hW : W.Takes taken) (oswrite₂ : List S8 → S8 → Bool)
    (argv : List S8) :
    ∃ part, part <+: usage ∧
      taken (delivers W d (parsed (oswrite W d) oswrite₂ argv).1.out.chunks).2 = taken d ++ part ∧
      ((parsed (oswrite W d) oswrite₂ argv).2 = .EXIT → part = usage) := by
  rcases parsed_helps (oswrite W d) oswrite₂ argv with ⟨hout, hexit⟩ | ⟨hout, hend⟩
  · refine ⟨[], List.nil_prefix, ?_, fun h => absurd h hexit⟩
    rw [hout, List.append_nil]
    rfl
  · obtain ⟨part, hpart, htaken, hall⟩ := flushed_delivers d hW (lists_newu8buf.prints8 usage)
      (prints8_tracked newu8buf_tracked usage)
    rw [← hout] at htaken hall
    refine ⟨part, hpart, htaken, fun hexit => hall ?_⟩
    rw [hexit] at hend
    cases herr : (parsed (oswrite W d) oswrite₂ argv).1.out.err with
    | false => rfl
    | true =>
      rw [herr] at hend
      cases hend

/-! The run -/

variable {World : Type}

/-- What is printed to standard output: the outcomes of the files, or the usage. -/
noncomputable def printedtext (os : Os World) (oswrite oswrite₂ : List S8 → S8 → Bool) (argv : List S8)
    (scratch : Arena) (w : World) : S8 :=
  if (parsed oswrite oswrite₂ argv).2 = .OK then
    ((outcomes (osload os) oswrite (wanted oswrite oswrite₂ argv) scratch w
      (listedpaths oswrite oswrite₂ argv)).map Prod.snd).flatten
  else usage

/-- For every command line, all that the system gives, every arena of the program's size at
    most and every descriptor whose writes take any part of what they are given, or fail:
    what it has taken when peports returns comes first in what is printed, which is the
    listings of the files, one after the other, or the usage if the options are not
    accepted; and when peports returns success it is all of that. -/
theorem peports_delivers (os : Os World) (oswrite₂ : List S8 → S8 → Bool) (d : σ) {taken : σ → S8}
    (hW : W.Takes taken) (argv : List S8) (scratch : Arena) (w : World)
    (hscratch : scratch.fin - scratch.beg ≤ 0x20000000) :
    (∃ r part, peports (oswrite W d) oswrite₂ (osload os) argv scratch w = .ok r ∧
      part <+: printedtext os (oswrite W d) oswrite₂ argv scratch w ∧
      taken (delivers W d r.out.chunks).2 = taken d ++ part ∧
      (r.ok ≠ 0 → part = printedtext os (oswrite W d) oswrite₂ argv scratch w)) ∧
    ∀ l ∈ (loads (osload os) scratch w (listedpaths (oswrite W d) oswrite₂ argv)).1,
      Outcome (oswrite W d) (wanted (oswrite W d) oswrite₂ argv) l
        (outcome (oswrite W d) (wanted (oswrite W d) oswrite₂ argv) l) := by
  have hloaded : ∀ l ∈ (loads (osload os) scratch w (listedpaths (oswrite W d) oswrite₂ argv)).1, Loaded l :=
    loads_all (fun path _ w => osload_loaded hscratch path w) w
  refine ⟨?_, fun l hl => (outcome_loaded _ _ (hloaded l hl)).1⟩
  unfold printedtext
  by_cases hstatus : (parsed (oswrite W d) oswrite₂ argv).2 = .OK
  · rw [if_pos hstatus]
    obtain ⟨err, hrun⟩ := peports_runs hstatus (parsed_out _ _ hstatus) hloaded
    obtain ⟨part, hpart, htaken, hall⟩ := flushed_delivers d hW
      (lists_newu8buf.files (outcomes (osload os) (oswrite W d) (wanted (oswrite W d) oswrite₂ argv) scratch w
        (listedpaths (oswrite W d) oswrite₂ argv)))
      (foldl_printed newu8buf_tracked _).1
    refine ⟨_, part, hrun, hpart, htaken, fun hok => hall ?_⟩
    change (if (written (oswrite W d) _).err then (0 : UInt32) else 1) ≠ 0 at hok
    show (written (oswrite W d) _).err = false
    generalize (written (oswrite W d) _).err = err at hok
    cases err with
    | false => rfl
    | true => exact absurd rfl hok
  · rw [if_neg hstatus]
    obtain ⟨part, hpart, htaken, hall⟩ := usage_delivers d hW oswrite₂ argv
    refine ⟨_, part, peports_stops hstatus, hpart, htaken, fun hok => hall ?_⟩
    by_contra hexit
    exact hok (if_neg hexit)

/-- A descriptor that takes one byte at a time. -/
def bytewise : Drain S8 UInt8 := ⟨fun s t => (min 1 t.length, s ++ t.take 1), fun _ _ => Nat.min_le_right _ _⟩

theorem bytewise_takes : bytewise.Takes id := fun s text => by cases text <;> simp [bytewise]

theorem bytewise_delivers (s text : S8) : (deliver bytewise s text).1 = true := by
  induction s, text using deliver.induct bytewise with
  | case1 s text hmore r hfail =>
    have hone : r.1 = 1 := Nat.min_eq_left hmore
    omega
  | case2 s text hmore r hsome ih =>
    rw [deliver, if_pos hmore, dif_neg hsome]
    exact ih
  | case3 s text hend =>
    rw [deliver, if_neg hend]

theorem oswrite_bytewise : oswrite bytewise [] = fun _ _ => true :=
  funext fun _ => funext fun buf => bytewise_delivers _ buf

/-- A command line for the exports of one file. -/
def asksexports : List S8 := [S "peports", S "-e", S "x"]

/-- The file is loaded whole. -/
theorem inpieces_loads : loads (osload (inpieces 7)) page twoexports [S "x"] =
    ([pure (some twoexports, ⟨0x1128, 0x2000, by decide, by decide⟩)],
      (osload (inpieces 7) twoexports page (S "x")).2) := by
  have hlen : twoexports.length = 296 := by decide +kernel
  have hwhole : twoexports.take page.avail = twoexports := List.take_of_length_le (by rw [hlen]; decide)
  obtain ⟨a, hload, hbeg, hfin, -⟩ := load_eq (inpieces_delivers (n := 7) (by decide) (S "x")) page twoexports
  obtain rfl : a = ⟨0x1128, 0x2000, by decide, by decide⟩ := arena_ext (hbeg.trans (by rw [id, hlen]; rfl)) hfin
  rw [id, hwhole] at hload
  have hfirst : (osload (inpieces 7) twoexports page (S "x")).1 = (load (inpieces 7) page (S "x") twoexports).1 := rfl
  rw [loads, loads, hfirst, hload]

/-- And its exports are printed. -/
theorem inpieces_printedtext :
    printedtext (inpieces 7) (fun _ _ => true) (fun _ _ => true) asksexports page twoexports =
      twoexports_directory.listing [⟨1, 0x2000, 0x1036⟩] := by
  have hstatus : (parsed (fun _ _ => true) (fun _ _ => true) asksexports).2 = .OK := rfl
  have hpaths : listedpaths (fun _ _ => true) (fun _ _ => true) asksexports = [S "x"] := by decide
  have hwanted : wanted (fun _ _ => true) (fun _ _ => true) asksexports = ⟨true, false⟩ := rfl
  let loaded : Pe (Slice × Arena) := pure (some twoexports, ⟨0x1128, 0x2000, by decide, by decide⟩)
  have hloaded : Loaded loaded := by
    refine ⟨.ok _, rfl, fun dll hdll => ?_⟩
    obtain rfl := Option.some.inj hdll
    decide +kernel
  have hrun := (outcome_loaded (fun _ _ => true) ⟨true, false⟩ hloaded).1 newu8buf
  have hprocess : (processloaded (fun _ _ => true) ⟨true, false⟩ loaded).run newu8buf =
      (.ok (), prints8 (fun _ _ => true) newu8buf (twoexports_directory.listing [⟨1, 0x2000, 0x1036⟩])) := by
    have hpe : processloaded (fun _ _ => true) ⟨true, false⟩ loaded =
        processpe (fun _ _ => true) ⟨true, false⟩ ⟨0x1128, 0x2000, by decide, by decide⟩ twoexports := by
      rw [processloaded, pure_bind]
    rw [hpe]
    exact processpe_twoexports _ _ (a := ⟨0x1140, 0x2000, by decide, by decide⟩) rfl
      ⟨⟨0x1142, 0x2000, by decide, by decide⟩, rfl⟩
  have htext : (outcome (fun _ _ => true) ⟨true, false⟩ loaded).2 =
      twoexports_directory.listing [⟨1, 0x2000, 0x1036⟩] :=
    prints8_inj (congrArg Prod.snd (hrun.symm.trans hprocess))
  rw [printedtext, if_pos hstatus, hpaths, hwanted, outcomes, inpieces_loads]
  show [(outcome (fun _ _ => true) ⟨true, false⟩ loaded).2].flatten = _
  rw [htext, List.flatten_singleton]

/-- The exports of a file that is read in pieces, written byte by byte. -/
theorem peports_delivers_bytewise : ∃ r,
    peports (oswrite bytewise []) (fun _ _ => true) (osload (inpieces 7)) asksexports page twoexports = .ok r ∧
    (delivers bytewise [] r.out.chunks).2 = twoexports_directory.listing [⟨1, 0x2000, 0x1036⟩] := by
  obtain ⟨⟨r, part, hr, -, htaken, hall⟩, -⟩ := peports_delivers (W := bytewise) (inpieces 7) (fun _ _ => true) []
    bytewise_takes asksexports page twoexports (by decide)
  rw [oswrite_bytewise, inpieces_printedtext] at hall
  have hloaded : ∀ l ∈ (loads (osload (inpieces 7)) page twoexports
      (listedpaths (oswrite bytewise []) (fun _ _ => true) asksexports)).1, Loaded l :=
    loads_all (fun path _ w => osload_loaded (show page.fin - page.beg ≤ 0x20000000 by decide) path w) _
  have hstatus : (parsed (oswrite bytewise []) (fun _ _ => true) asksexports).2 = .OK := rfl
  have hout : (parsed (oswrite bytewise []) (fun _ _ => true) asksexports).1.out = newu8buf := rfl
  have hok : r.ok ≠ 0 := by
    obtain ⟨err, hrun⟩ := peports_runs hstatus hout hloaded
    obtain rfl := Except.ok.inj (hr.symm.trans hrun)
    have hwritten (runs : List (Except Fault Unit × S8)) : (written (oswrite bytewise []) runs).err = false :=
      (written_tracked runs).mpr fun before chunk _ _ => bytewise_delivers _ chunk
    show (if (written _ _).err then (0 : UInt32) else 1) ≠ 0
    rw [hwritten]
    decide
  exact ⟨r, hr, htaken.trans (hall hok)⟩

end

end GnuWindows.Peports.Posix
