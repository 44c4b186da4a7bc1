/-
  GnuWindows.PkgConfig.Delivery — what a process has written when it exits.

  Whatever `uconfig` prints on the buffer of stdout is one text, the same from any buffer,
  and a run that succeeds flushes it in the end (`Flushes`). So stdout gets that text in
  blocks of the buffer's size.

  Proved:
  - `exit_delivers`: a process that writes to a file exits with 0 exactly when its run
    succeeds and every block is taken, and has then written all that was printed.
  - `exit_shows`: a console gets well-formed UTF-16, in calls of at most 256 units.
  - `console_report_iff`: on a console what was printed is shown as it is exactly when no
    character goes over the end of a block.
-/
import GnuWindows.PkgConfig.Diagnostics
import GnuWindows.PkgConfig.PathProofs
import GnuWindows.PkgConfig.PlatformProofs
import GnuWindows.Lib.Writer
import GnuWindows.VcFilt.Console

namespace GnuWindows.PkgConfig

open GnuWindows.Lib.Blocks (Device Buffer blocks feed flatten_blocks blocks_append blocks_short)
open GnuWindows.Lib.Hoare (Comp Sink)
open GnuWindows.Lib.Transcode (Codec)
open GnuWindows.Lib.Transfer (Calls ofText)
open GnuWindows.Lib.Utf (IsUtf16 utf8 utf16 utf8_append utf16_append length_utf8_replicate mem_utf8_replicate)
open GnuWindows.VcFilt (Handle)
open String (utf8EncodeChar)

/-! ## The buffer of stdout -/

def sink : Sink U8buf UInt8 := ⟨prints8, prints8_nil, prints8_append⟩

/-- From any buffer it ends in the same way and prints the same text. -/
def Puts {α : Type} (x : Uconfig α) : Prop := GnuWindows.Lib.Hoare.Says sink x fun _ _ => True

namespace Puts

variable {α β : Type}

theorem pure {a : α} : Puts (pure a : Uconfig α) := GnuWindows.Lib.Hoare.Says.pure trivial

theorem throw {f : Fail} : Puts (throw f : Uconfig α) := GnuWindows.Lib.Hoare.Says.throw trivial

theorem print {s : S8} : Puts (print s) := GnuWindows.Lib.Hoare.Says.any_put

theorem bind {x : Uconfig α} {f : α → Uconfig β} (hx : Puts x) (hf : ∀ a, Puts (f a)) : Puts (x >>= f) :=
  GnuWindows.Lib.Hoare.Says.any_bind hx hf

theorem ofExcept (r : Except Fail α) : Puts (Comp.ofExcept r) := by
  cases r with
  | ok a => exact pure
  | error f => exact throw

theorem forM {l : List Pkg} {f : Pkg → Uconfig Unit} (h : ∀ p, Puts (f p)) : Puts (l.forM f) := by
  induction l with
  | nil => exact pure
  | cons p l ih => exact (h p).bind fun _ => ih

end Puts

theorem printmodversion_puts (st : Optstate) (l : List Pkg) : Puts (printmodversion st l) := by
  unfold printmodversion
  split
  · refine .forM fun p => ?_
    split
    · exact Puts.print.bind fun _ => .print
    · exact .pure
  · exact .pure

theorem printexpanded_puts (err : Errbuf) (global : Env) (p : Pkg) (str : S8) :
    Puts (printexpanded err global p str) := by
  refine Puts.print.bind fun _ => ?_
  split
  · exact .throw
  · exact .pure

theorem printvariable_puts (st : Optstate) (global : Env) (l : List Pkg) : Puts (printvariable st global l) := by
  unfold printvariable
  split
  · exact .pure
  · refine .forM fun p => ?_
    split
    · split
      · exact (printexpanded_puts _ _ _ _).bind fun _ => .print
      · exact .pure
    · exact .pure

theorem printfields_puts (fields : Except Fail Fieldwriter) (argcount : Nat) : Puts (printfields fields argcount) :=
  (Puts.ofExcept fields).bind fun _ => Puts.print.bind fun _ => .pure

theorem printcflags_puts (conf : Config) (st : Optstate) (l : List Pkg) (argcount : Nat) :
    Puts (printcflags conf st l argcount) := by
  unfold printcflags
  split
  · exact printfields_puts _ argcount
  · exact .pure

theorem printlibs_puts (conf : Config) (st : Optstate) (l : List Pkg) (argcount : Nat) :
    Puts (printlibs conf st l argcount) := by
  unfold printlibs
  split
  · exact printfields_puts _ argcount
  · exact .pure

theorem printnewline_puts (st : Optstate) : Puts (printnewline st) := by
  unfold printnewline
  split
  · exact .print
  · exact .pure

/-- The buffer after a text: flushed, unless there was a failure. -/
def left (r : Except Fail Unit) (out : U8buf) : U8buf :=
  match r with
  | .ok _ => flush out
  | .error _ => out

/-- It prints one text, and flushes it unless it fails. -/
def Flushes (x : Uconfig Unit) : Prop := ∃ r text, ∀ out, x.run out = (r, left r (prints8 out text))

theorem Flushes.flush : Flushes (Comp.step flush) := ⟨.ok (), [], fun out => by rw [prints8_nil]; rfl⟩

theorem Flushes.bind {α : Type} {x : Uconfig α} {f : α → Uconfig Unit} (hx : Puts x) (hf : ∀ a, Flushes (f a)) :
    Flushes (x >>= f) := by
  obtain ⟨r, text, -, hrun⟩ := hx
  cases r with
  | error e => exact ⟨.error e, text, fun out => by rw [Comp.run_bind, hrun]; rfl⟩
  | ok a =>
    obtain ⟨r, text', hrun'⟩ := hf a
    refine ⟨r, text ++ text', fun out => ?_⟩
    rw [Comp.run_bind, hrun]
    show (f a).run (prints8 out text) = _
    rw [hrun', prints8_append]

theorem afteroptions_flushes (mapfile : S8 → Filemap) (conf : Config) (st : Optstate) :
    Flushes (afteroptions mapfile conf st) :=
  .bind (.ofExcept _) fun _ => .bind (.ofExcept _) fun _ => .bind (printmodversion_puts _ _) fun _ =>
    .bind (printvariable_puts _ _ _) fun _ => .bind (printcflags_puts _ _ _ _) fun _ =>
      .bind (printlibs_puts _ _ _ _) fun _ => .bind (printnewline_puts _) fun _ => .flush

/-! ## Blocks -/

/-- A file that takes every block gets the blocks of the text. -/
theorem chunks_flush (b : U8buf) (s : S8) :
    (flush (prints8 b s)).chunks = b.chunks ++ blocks b.cap (b.buf ++ s) := by
  have hflush (r : Buffer (device b.cap b.pos)) : (flush (ofBuffer r)).chunks = r.flush.dev := by
    unfold flush Buffer.flush ofBuffer
    by_cases hbuf : r.buf = []
    · simp [hbuf]
    · simp [hbuf, device]
  have hfeed (d : List S8) (bs : List S8) : feed (device b.cap b.pos) d bs = d ++ bs := by
    induction bs generalizing d with
    | nil => exact (List.append_nil d).symm
    | cons c bs ih =>
      exact (ih (d ++ [c])).trans (List.append_assoc d [c] bs)
  rw [prints8_buffer, hflush, Buffer.flush_put, hfeed]
  rfl

/-- Of a run that succeeds stdout gets what was printed, in blocks. -/
theorem uconfig_blocks {mapfile : S8 → Filemap} {conf : Config} {e : Ended} (he : uconfig mapfile conf = some e)
    (hok : e.result = .ok ()) : e.stdout = blocks 4096 e.out.total ∧ e.stdout.flatten = e.out.total := by
  have hout : ∃ text, e.out = flush (prints8 stdoutbuf text) := by
    unfold uconfig at he
    split at he
    · rename_i st hst
      obtain ⟨r, text, hrun⟩ := afteroptions_flushes mapfile conf st
      obtain rfl := Option.some.inj he
      have hr : r = .ok () := by rw [← hok, hrun]
      exact ⟨text, by rw [hrun, hr]; rfl⟩
    · rename_i text _
      obtain rfl := Option.some.inj he
      exact ⟨text, rfl⟩
    · obtain rfl := Option.some.inj he
      cases hok
    · cases he
    · cases he
  obtain ⟨text, htext⟩ := hout
  have htotal : e.out.total = text := by
    rw [htext, (total_flush _).1, total_prints8]
    rfl
  have hblocks : e.stdout = blocks 4096 e.out.total := by
    rw [Ended.stdout_ok hok, htotal, htext, chunks_flush]
    rfl
  exact ⟨hblocks, by rw [hblocks, flatten_blocks (by decide)]⟩

/-! ## A file -/

section

variable {fd : Handle}

/-- What was written to a file of these texts. -/
structure File (fd : Handle) (texts : List S8) (w : VcFilt.Written) : Prop where
  calls : Calls fd.writefile w.files w.err
  part : w.files <+: texts
  all : w.err = false → w.files = texts

theorem file_writes (hfd : fd.console = false) (texts : List S8) :
    File fd texts (texts.foldl (os_write fd) unwritten) := by
  induction texts using List.reverseRecOn with
  | nil => exact ⟨.start, List.prefix_rfl, fun _ => rfl⟩
  | append_singleton texts s ih =>
    rw [List.foldl_append, List.foldl_cons, List.foldl_nil]
    generalize texts.foldl (os_write fd) unwritten = w at ih ⊢
    obtain ⟨hcalls, hpart, hall⟩ := ih
    cases herr : w.err with
    | true =>
      rw [os_write_err herr]
      refine ⟨hcalls, hpart.trans (List.prefix_append _ _), fun hok => ?_⟩
      rw [herr] at hok
      cases hok
    | false =>
      rw [os_write_file hfd herr, hall herr]
      have hcalls : Calls fd.writefile texts false := by
        rw [← hall herr, ← herr]
        exact hcalls
      exact ⟨.call s hcalls, List.prefix_rfl, fun _ => rfl⟩

/-- There is no error exactly when every text is taken. -/
theorem file_err_iff (hfd : fd.console = false) (texts : List S8) :
    (texts.foldl (os_write fd) unwritten).err = false ↔ Calls fd.writefile texts false := by
  obtain ⟨hcalls, -, hall⟩ := file_writes hfd texts
  constructor
  · intro herr
    rw [hall herr, herr] at hcalls
    exact hcalls
  · intro htexts
    cases herr : (texts.foldl (os_write fd) unwritten).err with
    | false => rfl
    | true =>
      obtain ⟨-, hpart, -⟩ := file_writes hfd texts
      rw [herr] at hcalls
      -- a call that failed was one of these
      obtain ⟨calls, x, hfiles, hfail⟩ := hcalls.failed
      obtain ⟨after, hafter⟩ := hpart
      rw [hfiles, List.append_assoc] at hafter
      have htook := htexts.succeeded hafter.symm (Or.inl rfl)
      rw [hfail] at htook
      cases htook

end

/-! ## The exit -/

variable {H : Type} {ptr : Nat} {PKG_CONFIG_PREFIX : S8} {sys : System H} {x : Exited}

theorem exited_of_main (hmain : mainCRTStartup ptr PKG_CONFIG_PREFIX sys = some x) : ∃ conf e,
    startconfig ptr PKG_CONFIG_PREFIX sys = some conf ∧ uconfig sys.mapfile conf = some e ∧ x = exitprocess sys e := by
  unfold mainCRTStartup at hmain
  cases hconf : startconfig ptr PKG_CONFIG_PREFIX sys with
  | none => rw [hconf] at hmain; cases hmain
  | some conf =>
    rw [hconf] at hmain
    obtain ⟨e, he, rfl⟩ := Option.map_eq_some_iff.mp hmain
    exact ⟨conf, e, rfl, he, rfl⟩

variable (sys) in
/-- The process exits with 0 exactly when its run succeeds and no call on stdout fails. -/
theorem exitprocess_code (e : Ended) :
    (exitprocess sys e).code = 0 ↔
      e.result = .ok () ∧ (e.stdout.foldl (os_write sys.stdout) unwritten).err = false := by
  unfold exitprocess
  cases hres : e.result with
  | error f => simp
  | ok u => simp [Ended.stderr_ok hres, unwritten]

/-- For every system whose stdout is a file and every outcome of its calls: the writes to
    stdout, none of which comes after one that failed, are the first of those that the run
    asks for; and the process exits with 0 if and only if the run succeeds and every write
    does, which together make up all that was printed, in blocks of 4096 bytes. -/
theorem exit_delivers (hmain : mainCRTStartup ptr PKG_CONFIG_PREFIX sys = some x) (hfd : sys.stdout.console = false) :
    ∃ conf e, startconfig ptr PKG_CONFIG_PREFIX sys = some conf ∧ uconfig sys.mapfile conf = some e ∧
      Calls sys.stdout.writefile x.stdout.files x.stdout.err ∧ x.stdout.files <+: e.stdout ∧
      (x.code = 0 ↔ e.result = .ok () ∧ Calls sys.stdout.writefile e.stdout false) ∧
      (x.code = 0 → x.stdout.files = blocks 4096 e.out.total ∧ x.stdout.files.flatten = e.out.total) := by
  obtain ⟨conf, e, hconf, he, rfl⟩ := exited_of_main hmain
  obtain ⟨hcalls, hpart, hall⟩ := file_writes hfd e.stdout
  have hcode := exitprocess_code sys e
  refine ⟨conf, e, hconf, he, hcalls, hpart, ?_, fun h0 => ?_⟩
  · rw [hcode, file_err_iff hfd]
  · obtain ⟨hres, herr⟩ := hcode.mp h0
    obtain ⟨hblocks, hflat⟩ := uconfig_blocks he hres
    have hfiles : (exitprocess sys e).stdout.files = e.stdout := hall herr
    exact ⟨hfiles.trans hblocks, by rw [hfiles, hflat]⟩

/-! ## A report of more than one block -/

/-- The report on one variable of one package. -/
theorem report_variable_plain (conf : Config) {st : Optstate} {proc : Processor} {p : Pkg} {name value : S8}
    (hnone : (st.modversion || st.cflags || st.libs) = false) (hname : st.variable_ = some name)
    (hlist : proc.pkgs.list = [p]) (hdirect : p.flags.pkgDirect = true)
    (hlook : lookup proc.global p.env name = some value) (hplain : 0x24 ∉ value) (out : U8buf) :
    (report conf st proc).run out = (.ok (), flush (prints8 out (value ++ S "\n"))) := by
  simp only [Bool.or_eq_false_iff] at hnone
  obtain ⟨⟨hmodversion, hcflags⟩, hlibs⟩ := hnone
  have hexpand := expand_subst (errbuf st) (subst_plain (lookup proc.global p.env) 127 hplain)
  have hvariable : (printvariable st proc.global [p]).run out = (.ok (), prints8 out (value ++ S "\n")) := by
    rw [printvariable, hname, prints8_append]
    simp only [List.forM, if_pos hdirect, hlook, printexpanded, hexpand]
    rfl
  unfold report printmodversion printcflags printlibs printnewline
  simp only [hmodversion, hcflags, hlibs, hlist, Bool.or_self, Bool.false_eq_true, if_false, pure_bind]
  rw [Comp.run_bind, hvariable]
  rfl

/-- A directory with a long name. -/
def builddir : List Char := List.replicate 2100 'é'

theorem builddir_bytes {b : UInt8} (h : b ∈ utf8 builddir) : b = 0xc3 ∨ b = 0xa9 := by
  have hbytes : utf8EncodeChar 'é' = [0xc3, 0xa9] := rfl
  have hb := mem_utf8_replicate h
  rw [hbytes] at hb
  simpa using hb

theorem s8pathencode_builddir : s8pathencode (utf8 builddir) = utf8 builddir := by
  have hplain : ∀ b ∈ utf8 builddir, pathencode b = id b := by
    intro b hb
    rcases builddir_bytes hb with rfl | rfl <;> rfl
  rw [s8pathencode_eq_map, List.map_congr_left hplain, List.map_id]

/-- A system without files, on which that directory is asked for. -/
def asksbuilddir (console : Bool) : System S8 where
  commandline := L "pkg-config --variable=pc_top_builddir pkg-config"
  modulefilename := fun _ => L "C:\\w64devkit\\bin\\pkg-config.exe"
  environment := fun name =>
    if name = L "PKG_CONFIG_TOP_BUILD_DIR" then some (utf16 builddir)
    else if name = L "PKG_CONFIG_LIBDIR" then some (utf16 ['/'])
    else none
  files := ⟨fun _ => none, ofText fun _ _ => 1⟩
  stdout := ⟨console, fun _ _ => true, fun _ _ => true⟩
  stderr := ⟨false, fun _ _ => true, fun _ _ => true⟩
  free := 0x400000
  room := fun _ => 0x400000

def builddirconf : Config :=
  let base := installdir_ (asksbuilddir false).modulefilename 0x400000
  { args := [S "--variable=pc_top_builddir", S "pkg-config"]
    envpath := []
    fixedpath := S "/"
    top_builddir := some (utf8 builddir)
    sys_incpath := append2_ base (S "/include")
    sys_libpath := append2_ base (S "/lib")
    print_sysinc := none
    print_syslib := none
    define_prefix := true
    delim := 0x3b }

theorem startconfig_builddir (console : Bool) : startconfig 8 [] (asksbuilddir console) = some builddirconf := by
  have hargs : ((cmdMachine utf8bytes 0).runN 60 (.start (asksbuilddir false).commandline)).map
      (Option.map fun s => (strings 0 s.argv (storenull 8 s.argv.length (s.buf ++ [0]))).tail) =
        some (some builddirconf.args) := by decide +kernel
  obtain ⟨r, hrun, hr⟩ := Option.map_eq_some_iff.mp hargs
  obtain ⟨s, rfl, hs⟩ := Option.map_eq_some_iff.mp hr
  have hcmd : cmdline_to_argv8 8 (asksbuilddir console).commandline =
      some ⟨s.argv, storenull 8 s.argv.length (s.buf ++ [0])⟩ :=
    congrArg (Option.map _) ((cmdMachine utf8bytes 0).run_of_runN hrun)
  have henv : fromenv_ (asksbuilddir console).environment (L "PKG_CONFIG_TOP_BUILD_DIR") = some (utf8 builddir) :=
    congrArg some (narrow_utf16 builddir)
  have hfixed : fromenv_ (asksbuilddir console).environment (L "PKG_CONFIG_LIBDIR") = some (S "/") :=
    congrArg some (narrow_utf16 ['/'])
  rw [startconfig, hcmd, Option.map_some, henv, hfixed, hs]
  rfl

/-- One package, given as an argument, to which that directory is bound. -/
def hasbuilddir (st : Optstate) (r : Except Fail Procend) : Bool :=
  r.toOption.any fun e =>
    let proc := { st.proc with last := e.last, op := e.op, pending := e.pending, pkgs := e.pkgs }
    let value := fun p => lookup proc.global p.env (S "pc_top_builddir")
    !(st.modversion || st.cflags || st.libs) && st.variable_ == some (S "pc_top_builddir") &&
      (checkall st proc).toOption.isSome &&
      proc.pkgs.list.map (fun p => (p.flags.pkgDirect, value p)) == [(true, some (s8pathencode (utf8 builddir)))]

/-- How that run ends. -/
def builddirended : Ended := ⟨flush (prints8 stdoutbuf (utf8 builddir ++ S "\n")), .ok ()⟩

theorem total_builddirended : builddirended.out.total = utf8 (builddir ++ ['\n']) := by
  rw [builddirended, (total_flush _).1, total_prints8, utf8_append]
  rfl

/-- A whole block of characters, and a part of one. -/
theorem builddir_append :
    builddir ++ ['\n'] = List.replicate 2048 'é' ++ (List.replicate 52 'é' ++ ['\n']) := by
  rw [builddir, show 2100 = 2048 + 52 from rfl, List.replicate_add, List.append_assoc]

theorem length_firstblock : (utf8 (List.replicate 2048 'é')).length = 4096 := length_utf8_replicate 2048 'é'

theorem length_lastblock : (utf8 (List.replicate 52 'é' ++ ['\n'])).length = 105 := by decide +kernel

theorem builddirended_blocks : blocks 4096 builddirended.out.total =
    [utf8 (List.replicate 2048 'é'), utf8 (List.replicate 52 'é' ++ ['\n'])] := by
  rw [total_builddirended, builddir_append, utf8_append, blocks_append (by decide) length_firstblock]
  have hne : utf8 (List.replicate 52 'é' ++ ['\n']) ≠ [] := List.ne_nil_of_length_pos (by rw [length_lastblock]; decide)
  exact congrArg _ (blocks_short (by rw [length_lastblock]; decide) hne)

theorem uconfig_builddir : uconfig (asksbuilddir false).mapfile builddirconf = some builddirended := by
  obtain ⟨st, r, hst, hr, hproc⟩ := processargs_runN (asksbuilddir false).mapfile builddirconf (S "pkg-config")
    (C := hasbuilddir) 30 (by decide +kernel)
  obtain ⟨e, he, hprints⟩ := (Option.any_eq_true _ _).mp hr
  cases r with
  | error f => cases he
  | ok e' =>
    obtain rfl := Option.some.inj he
    rw [s8pathencode_builddir] at hprints
    simp only [Bool.and_eq_true, Bool.not_eq_true', beq_iff_eq] at hprints
    obtain ⟨⟨⟨hnone, hname⟩, hchecks⟩, hlist⟩ := hprints
    obtain ⟨p, hpkgs, hp⟩ := List.map_eq_singleton_iff.mp hlist
    obtain ⟨hdirect, hlook⟩ := Prod.mk.inj hp
    have hplain : 0x24 ∉ utf8 builddir := fun h => absurd (builddir_bytes h) (by decide)
    have hpkgs : Pkgs.list (Processor.pkgs { st.proc with
        last := e'.last, op := e'.op, pending := e'.pending, pkgs := e'.pkgs }) = [p] := hpkgs
    have hreport := report_variable_plain builddirconf hnone hname hpkgs hdirect hlook hplain stdoutbuf
    rw [uconfig_parsed _ hst, afteroptions_ok hproc, conclude, Comp.run_bind]
    cases hcheck : checkall st _ with
    | error f => rw [hcheck] at hchecks; cases hchecks
    | ok u =>
      show some (Ended.mk ((report _ _ _).run stdoutbuf).2 ((report _ _ _).run stdoutbuf).1) = _
      rw [hreport]
      rfl

theorem asksbuilddir_exits (console : Bool) :
    mainCRTStartup 8 [] (asksbuilddir console) = some (exitprocess (asksbuilddir console) builddirended) := by
  rw [mainCRTStartup, startconfig_builddir]
  exact congrArg (Option.map (exitprocess (asksbuilddir console))) uconfig_builddir

theorem asksbuilddir_code (console : Bool) : (exitprocess (asksbuilddir console) builddirended).code = 0 := by
  rw [exitprocess_code]
  refine ⟨rfl, ?_⟩
  cases console with
  | false =>
    have hfd : (asksbuilddir false).stdout.console = false := rfl
    exact (file_writes hfd _).calls.took fun _ _ => rfl
  | true => exact (console_writes (asksbuilddir true).stdout rfl _).calls.took fun _ _ => rfl

theorem asksbuilddir_ended {console : Bool} {conf : Config} {e : Ended}
    (hconf : startconfig 8 [] (asksbuilddir console) = some conf)
    (he : uconfig (asksbuilddir console).mapfile conf = some e) : e = builddirended := by
  obtain rfl := Option.some.inj ((startconfig_builddir console).symm.trans hconf)
  exact (Option.some.inj (uconfig_builddir.symm.trans he)).symm

theorem exit_delivers_builddir : ∃ x, mainCRTStartup 8 [] (asksbuilddir false) = some x ∧ x.code = 0 ∧
    x.stdout.files = [utf8 (List.replicate 2048 'é'), utf8 (List.replicate 52 'é' ++ ['\n'])] := by
  obtain ⟨conf, e, hconf, he, -, -, -, hall⟩ := exit_delivers (asksbuilddir_exits false) rfl
  obtain rfl := asksbuilddir_ended hconf he
  have hfiles := (hall (asksbuilddir_code false)).1
  rw [builddirended_blocks] at hfiles
  exact ⟨_, asksbuilddir_exits false, asksbuilddir_code false, hfiles⟩

/-! ## A report on a console -/

/-- The decoder is the one of vc++filt, and so is what it gives. -/
theorem runes_codec (s : S8) : VcFilt.codec.runes s = towide.runes s := by
  induction s using GnuWindows.Lib.Transcode.Codec.runes.induct towide with
  | case1 => rw [Codec.runes_nil, Codec.runes_nil]
  | case2 s hs ih => rw [Codec.runes_cons _ hs, Codec.runes_cons _ hs]; exact congrArg _ ih

theorem converted_codec (s : S8) : VcFilt.codec.converted s = towide.converted s := by
  obtain ⟨cs, hcs⟩ := towide_runes s
  have hunits : ∀ c : Char, VcFilt.codec.encode c.toNat = towide.encode c.toNat :=
    fun c => (utf16units_char c).trans (utf16encode_char c).symm
  rw [Codec.converted, Codec.converted, runes_codec, hcs, List.flatMap_map, List.flatMap_map]
  exact congrArg (List.flatMap · cs) (funext hunits)

theorem reads_codec {s t : S8} (h : VcFilt.codec.Reads s t) : towide.Reads s t := by
  induction h with
  | refl s => exact .refl s
  | step hs _ ih => exact .step hs ih

theorem towide_resyncs : towide.Resyncs where
  cut s t hs := by
    have hcut := VcFilt.codec_resyncs.cut s t hs
    rwa [converted_codec, converted_codec, converted_codec] at hcut

/-- For every system whose stdout is a console, whatever its calls return: no call of
    `WriteConsoleW` comes after a failed one; each gets 1 to 256 units of well-formed
    UTF-16, so no pair is split; all of them together get the beginning of the conversions
    of what the run writes, and all of these where the process exits with 0. -/
theorem exit_shows (hmain : mainCRTStartup ptr PKG_CONFIG_PREFIX sys = some x) (hfd : sys.stdout.console = true) :
    ∃ conf e, startconfig ptr PKG_CONFIG_PREFIX sys = some conf ∧ uconfig sys.mapfile conf = some e ∧
      Calls sys.stdout.writeconsole x.stdout.consoles x.stdout.err ∧
      (∀ u ∈ x.stdout.consoles, u ≠ [] ∧ u.length ≤ 0x100 ∧ IsUtf16 u) ∧
      x.stdout.consoles.flatten <+: e.stdout.flatMap wide ∧
      (x.code = 0 → x.stdout.consoles.flatten = e.stdout.flatMap wide) := by
  obtain ⟨conf, e, hconf, he, rfl⟩ := exited_of_main hmain
  obtain ⟨hcalls, hunits, hall, hpart⟩ := console_writes sys.stdout hfd e.stdout
  exact ⟨conf, e, hconf, he, hcalls, hunits, hpart, fun hcode => hall ((exitprocess_code sys e).mp hcode).2⟩

theorem exit_shows_builddir : ∃ x, mainCRTStartup 8 [] (asksbuilddir true) = some x ∧ x.code = 0 ∧
    (∀ u ∈ x.stdout.consoles, u.length ≤ 0x100) ∧ x.stdout.consoles.flatten = utf16 (builddir ++ ['\n']) := by
  obtain ⟨conf, e, hconf, he, -, hunits, -, hall⟩ := exit_shows (asksbuilddir_exits true) rfl
  obtain rfl := asksbuilddir_ended hconf he
  have hshown := hall (asksbuilddir_code true)
  rw [(uconfig_blocks he rfl).1, builddirended_blocks, List.flatMap_cons, List.flatMap_singleton, wide_utf8,
    wide_utf8] at hshown
  refine ⟨_, asksbuilddir_exits true, asksbuilddir_code true, fun u hu => (hunits u hu).2.1, hshown.trans ?_⟩
  rw [builddir_append]
  exact (utf16_append _ _).symm

/-- For every system whose stdout is a console and every run that exits with 0: what the
    console gets is the UTF-16 form of all that was printed if and only if no character in
    it goes over a multiple of 4096 bytes. -/
theorem console_report_iff (hmain : mainCRTStartup ptr PKG_CONFIG_PREFIX sys = some x)
    (hfd : sys.stdout.console = true) (hcode : x.code = 0) :
    ∃ conf e, startconfig ptr PKG_CONFIG_PREFIX sys = some conf ∧ uconfig sys.mapfile conf = some e ∧
      (x.stdout.consoles.flatten = wide e.out.total ↔
        ∀ k, k * 4096 ≤ e.out.total.length → towide.Reads e.out.total (e.out.total.drop (k * 4096))) := by
  obtain ⟨conf, e, hconf, he, rfl⟩ := exited_of_main hmain
  obtain ⟨hres, herr⟩ := (exitprocess_code sys e).mp hcode
  have hsent : (exitprocess sys e).stdout.consoles.flatten = e.stdout.flatMap wide :=
    (console_writes sys.stdout hfd e.stdout).all herr
  have hwide : wide = towide.converted := funext wide_converted
  refine ⟨conf, e, hconf, he, ?_⟩
  rw [hsent, (uconfig_blocks he hres).1, hwide]
  exact Codec.converted_blocks_iff towide_resyncs (by decide) e.out.total

theorem console_report_iff_builddir : ∃ x, mainCRTStartup 8 [] (asksbuilddir true) = some x ∧
    x.stdout.consoles.flatten = wide (utf8 (builddir ++ ['\n'])) := by
  obtain ⟨conf, e, hconf, he, hiff⟩ := console_report_iff (asksbuilddir_exits true) rfl (asksbuilddir_code true)
  obtain rfl := asksbuilddir_ended hconf he
  refine ⟨_, asksbuilddir_exits true, total_builddirended ▸ hiff.mpr fun k hk => ?_⟩
  have htotal : builddirended.out.total = utf8 (List.replicate 2048 'é') ++ utf8 (List.replicate 52 'é' ++ ['\n']) := by
    rw [total_builddirended, builddir_append, utf8_append]
  rw [htotal] at hk ⊢
  rw [List.length_append, length_firstblock, length_lastblock] at hk
  obtain rfl | rfl : k = 0 ∨ k = 1 := by omega
  · exact .refl _
  · rw [Nat.one_mul, List.drop_left' length_firstblock]
    exact reads_codec (VcFilt.reads_utf8 _ _)

end GnuWindows.PkgConfig
