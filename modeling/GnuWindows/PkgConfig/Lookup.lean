/-
  GnuWindows.PkgConfig.Lookup — where a package is looked up, in the units of Windows.

  The search path comes from the environment in UTF-16, is split at `;` as UTF-8, and each
  directory goes back to UTF-16 with the name of the package. `;` is a byte and a unit of
  its own in both encodings, so splitting and encoding commute (`splitOn_flatMap`).

  Proved: `openpackage_first`, the file that is opened is the one in the first directory of
  the environment, as it is there, that has one.
-/
import GnuWindows.PkgConfig.PlatformProofs
import GnuWindows.PkgConfig.SearchList

namespace GnuWindows.PkgConfig

open GnuWindows.Lib.Transfer (Delivers ofText ofText_delivers)
open GnuWindows.Lib.Utf
open String (utf8EncodeChar)

/-! ## Splitting what is encoded -/

/-- A delimiter that is only in its own encoding is where the text is split. -/
theorem splitOn_flatMap {α β : Type} [DecidableEq α] [DecidableEq β] {f : α → List β} {d : α} {e : β}
    (hd : f d = [e]) (h : ∀ c, c ≠ d → e ∉ f c) (s : List α) :
    (s.flatMap f).splitOn e = (s.splitOn d).map (List.flatMap f) := by
  induction hn : s.length using Nat.strongRecOn generalizing s with
  | _ n ih =>
    have hnot {t : List α} (ht : d ∉ t) : e ∉ t.flatMap f := by
      intro hmem
      obtain ⟨c, hc, he⟩ := List.mem_flatMap.mp hmem
      exact h c (fun hcd => ht (hcd ▸ hc)) he
    by_cases hmem : d ∈ s
    · obtain ⟨head, rest, rfl, hhead⟩ := List.eq_append_cons_of_mem hmem
      have hrest := ih rest.length (by rw [← hn, List.length_append, List.length_cons]; omega) rest rfl
      rw [List.flatMap_append, List.flatMap_cons, hd, List.singleton_append,
        List.splitOn_append_cons_self_of_not_mem (hnot hhead), List.splitOn_append_cons_self_of_not_mem hhead, hrest,
        List.map_cons]
    · rw [List.splitOn_eq_singleton (hnot hmem), List.splitOn_eq_singleton hmem, List.map_singleton]

/-- An ASCII byte is in the encoding of its own character only. -/
theorem ascii_mem_utf8 {c : Char} {b : UInt8} (hb : b.toNat < 0x80) (h : b ∈ utf8EncodeChar c) : c.toNat = b.toNat := by
  have hc := char_range c
  rw [← utf8bytes_char, utf8bytes_eq (by omega)] at h
  generalize c.toNat = v at hc h
  have hbyte {n : Nat} (hn : n < 256) (he : b = UInt8.ofNat n) : b.toNat = n := by rw [he, toNat_byte hn]
  split at h
  · exact (hbyte (by omega) (List.mem_singleton.mp h)).symm
  split at h
  · rcases List.mem_pair.mp h with he | he
    · have := hbyte (by omega) he
      omega
    · have := hbyte (by omega) he
      omega
  split at h
  · simp only [List.mem_cons, List.not_mem_nil, or_false] at h
    rcases h with he | he | he
    all_goals
      have := hbyte (by omega) he
      omega
  · simp only [List.mem_cons, List.not_mem_nil, or_false] at h
    rcases h with he | he | he | he
    all_goals
      have := hbyte (by omega) he
      omega

theorem ascii_mem_utf16 {c : Char} {u : UInt16} (hu : u.toNat < 0x80) (h : u ∈ utf16EncodeChar c) :
    c.toNat = u.toNat := by
  have hc := char_range c
  unfold utf16EncodeChar at h
  generalize c.toNat = v at hc h
  have hunit {n : Nat} (hn : n < 65536) (he : u = UInt16.ofNat n) : u.toNat = n := by rw [he, toNat_unit hn]
  split at h
  · exact (hunit (by omega) (List.mem_singleton.mp h)).symm
  · rcases List.mem_pair.mp h with he | he
    · have := hunit (by omega) he
      omega
    · have := hunit (by omega) he
      omega

/-- The directories of a path in units. -/
def components16 (path : S16) : List S16 := (path.splitOn 0x3b).filter (· ≠ [])

/-- The directories of a path in characters. -/
def directories (path : List Char) : List (List Char) := (path.splitOn ';').filter (· ≠ [])

theorem flatMap_ne_nil {α β : Type} {f : α → List β} (h : ∀ a, f a ≠ []) (s : List α) : s.flatMap f ≠ [] ↔ s ≠ [] := by
  cases s with
  | nil => simp
  | cons a s => simp [h a]

theorem components_utf8 (path : List Char) : components (utf8 path) 0x3b = (directories path).map utf8 := by
  have hsplit : (utf8 path).splitOn 0x3b = (path.splitOn ';').map utf8 :=
    splitOn_flatMap (f := utf8EncodeChar) (d := ';') rfl
      (fun c hc hmem => hc (Char.toNat_inj.mp (ascii_mem_utf8 (b := 0x3b) (by decide) hmem))) path
  rw [components, hsplit, List.filter_map, directories]
  refine congrArg (List.map utf8) (List.filter_congr fun s _ => ?_)
  exact decide_eq_decide.mpr (flatMap_ne_nil utf8EncodeChar_ne_nil s)

theorem components16_utf16 (path : List Char) : components16 (utf16 path) = (directories path).map utf16 := by
  have hsplit : (utf16 path).splitOn 0x3b = (path.splitOn ';').map utf16 :=
    splitOn_flatMap (f := utf16EncodeChar) (d := ';') rfl
      (fun c hc hmem => hc (Char.toNat_inj.mp (ascii_mem_utf16 (u := 0x3b) (by decide) hmem))) path
  rw [components16, hsplit, List.filter_map, directories]
  refine congrArg (List.map utf16) (List.filter_congr fun s _ => ?_)
  exact decide_eq_decide.mpr (flatMap_ne_nil utf16EncodeChar_ne_nil s)

/-! ## Looking up -/

/-- `dir/name.pc` and its terminator. -/
def widepath (dir : S16) (name : List Char) : S16 := dir ++ L "/" ++ utf16 name ++ L ".pc" ++ [0]

/-- The path of a package, in characters. -/
def pcpath (dir name : List Char) : List Char := dir ++ ['/'] ++ name ++ ['.', 'p', 'c']

theorem buildpath_utf8 (dir name : List Char) :
    buildpath (utf8 dir) (utf8 name) = utf8 (pcpath dir name ++ ['\x00']) := by
  simp only [pcpath, utf8_append, buildpath, List.append_assoc]
  rfl

theorem wide_buildpath (dir name : List Char) :
    wide (buildpath (utf8 dir) (utf8 name)) = widepath (utf16 dir) name := by
  rw [buildpath_utf8, wide_utf8]
  simp only [pcpath, utf16_append, widepath, List.append_assoc]
  rfl

theorem dropLast_buildpath (dir name : List Char) :
    (buildpath (utf8 dir) (utf8 name)).dropLast = utf8 (pcpath dir name) := by
  rw [buildpath_utf8, utf8_append]
  exact List.dropLast_concat

variable {H : Type} {sys : System H} {left : H → S8}

/-- The files of a system, none of which fills the arena. -/
structure Readable (sys : System H) (left : H → S8) : Prop where
  delivers : Delivers sys.files.readfile left
  room : ∀ path handle, sys.files.createfile (wide path) = some handle → (left handle).length < sys.room path

theorem Readable.mapfile (h : Readable sys left) (path : S8) :
    sys.mapfile path =
      match sys.files.createfile (wide path) with
      | none => .notfound
      | some handle => .ok (left handle) := by
  rw [System.mapfile]
  cases hfile : sys.files.createfile (wide path) with
  | none => rw [os_mapfile, hfile]
  | some handle => rw [os_mapfile_room _ h.delivers hfile (h.room path handle hfile)]

/-- The first directory with a file of that name, and the file. -/
def firstfile (createfile : S16 → Option H) (name : List Char) (dirs : List S16) : Option (S16 × H) :=
  dirs.findSome? fun dir => (createfile (widepath dir name)).map fun handle => (dir, handle)

theorem searchdirs_first (h : Readable sys left) (err : Errbuf) {name : List Char} (hname : utf8 name ≠ S "pkg-config")
    (dirs : List (List Char)) (path : S8) :
    ∃ found, searchdirs sys.mapfile err (utf8 name) (dirs.map utf8) path = .ok found ∧
      match firstfile sys.files.createfile name (dirs.map utf16) with
      | none => found.2 = none
      | some (dir, handle) => ∃ cs, dir = utf16 cs ∧ found = (utf8 (pcpath cs name), some (left handle)) := by
  induction dirs generalizing path with
  | nil => exact ⟨_, rfl, rfl⟩
  | cons dir dirs ih =>
    have hread : readpackage sys.mapfile err (buildpath (utf8 dir) (utf8 name)) (utf8 name) =
        match sys.files.createfile (widepath (utf16 dir) name) with
        | none => .ok none
        | some handle => .ok (some (left handle)) := by
      rw [readpackage, if_neg (by simpa using hname), h.mapfile, wide_buildpath]
      cases sys.files.createfile (widepath (utf16 dir) name) <;> rfl
    rw [List.map_cons, searchdirs, hread, List.map_cons, firstfile, List.findSome?_cons]
    cases sys.files.createfile (widepath (utf16 dir) name) with
    | none => exact ih _
    | some handle => exact ⟨_, rfl, dir, rfl, by rw [dropLast_buildpath]⟩

/-- For every system whose search paths are set to well-formed UTF-16, every file system
    that has room for its files, and every package name that is no path: the package that is
    opened is the one in the first directory of `PKG_CONFIG_PATH` and then
    `PKG_CONFIG_LIBDIR`, split at `;` as they are, under which `CreateFileW` finds the name;
    and it cannot be found only where there is none. -/
theorem openpackage_first {ptr : Nat} {PKG_CONFIG_PREFIX : S8} {conf : Config} {path libdir : S16} (err : Errbuf)
    (h : Readable sys left) (hconf : startconfig ptr PKG_CONFIG_PREFIX sys = some conf)
    (hpath : sys.environment (L "PKG_CONFIG_PATH") = some path ∧ IsUtf16 path)
    (hlibdir : sys.environment (L "PKG_CONFIG_LIBDIR") = some libdir ∧ IsUtf16 libdir) (name : List Char)
    (hname : utf8 name ≠ S "pkg-config" ∧ realnameispath (utf8 name) = false) :
    openpackage sys.mapfile err (newoptstate conf).proc.search (utf8 name) =
      match firstfile sys.files.createfile name (components16 path ++ components16 libdir) with
      | none => .error (failfind err (utf8 name))
      | some (dir, handle) => .ok (narrow dir ++ S "/" ++ utf8 name ++ S ".pc", utf8 name, left handle) := by
  obtain ⟨hpath, ps, rfl⟩ := hpath
  obtain ⟨hlibdir, ls, rfl⟩ := hlibdir
  have hdirs : (newoptstate conf).proc.search.list = (directories ps ++ directories ls).map utf8 := by
    obtain ⟨r, -, rfl⟩ := Option.map_eq_some_iff.mp hconf
    simp only [newoptstate, newprocessor, appendpath, newsearch, fromenv_, hpath, hlibdir, Option.map_some,
      narrow_utf16, bytes, Option.getD_some, splitpath_eq, components_utf8, List.nil_append, List.map_append]
  rw [components16_utf16, components16_utf16, ← List.map_append]
  obtain ⟨⟨file, read⟩, hfound, hfirst⟩ := searchdirs_first h err hname.1 (directories ps ++ directories ls) []
  have hopen : openpackage sys.mapfile err (newoptstate conf).proc.search (utf8 name) =
      read.elim (.error (failfind err (utf8 name))) fun contents => .ok (file, utf8 name, contents) := by
    simp only [openpackage, hname.2, Bool.false_eq_true, if_false, hdirs]
    show (searchdirs sys.mapfile err (utf8 name) ((directories ps ++ directories ls).map utf8) [] >>= _) = _
    rw [hfound]
    cases read <;> rfl
  rw [hopen]
  cases hf : firstfile sys.files.createfile name ((directories ps ++ directories ls).map utf16) with
  | none =>
    rw [hf] at hfirst
    obtain rfl : read = none := hfirst
    rfl
  | some r =>
    obtain ⟨dir, handle⟩ := r
    rw [hf] at hfirst
    obtain ⟨cs, rfl, hread⟩ := hfirst
    cases hread
    show Except.ok (utf8 (pcpath cs name), _, _) = .ok (narrow (utf16 cs) ++ _ ++ _ ++ _, _, _)
    rw [narrow_utf16, pcpath, utf8_append, utf8_append, utf8_append]
    rfl

/-- One file, in the second directory of three. -/
def threedirs : System S8 where
  commandline := []
  modulefilename := fun _ => []
  environment := fun name =>
    if name = L "PKG_CONFIG_PATH" then some (L "C:\\x;D:\\y")
    else if name = L "PKG_CONFIG_LIBDIR" then some (L "E:\\z")
    else none
  files := ⟨fun path => if path = L "D:\\y/a.pc\x00" then some (S "Name: a") else none, ofText fun _ _ => 1⟩
  stdout := ⟨false, fun _ _ => true, fun _ _ => true⟩
  stderr := ⟨false, fun _ _ => true, fun _ _ => true⟩
  free := 0x400000
  room := fun _ => 0x400000

theorem readable_threedirs : Readable threedirs id where
  delivers := ofText_delivers fun _ _ _ => by decide
  room path handle h := by
    simp only [threedirs] at h
    split at h
    · obtain rfl := Option.some.inj h
      show (S "Name: a").length < 0x400000
      decide
    · cases h

theorem openpackage_first_threedirs : ∃ conf, startconfig 8 [] threedirs = some conf ∧
    openpackage threedirs.mapfile .stderr (newoptstate conf).proc.search (S "a") =
      .ok (S "D:\\y/a.pc", S "a", S "Name: a") := by
  have hcmd : cmdline_to_argv8 8 threedirs.commandline = some _ :=
    congrArg (Option.map _) ((cmdMachine utf8bytes 0).run_stop (s := .start []) rfl)
  have hconf : startconfig 8 [] threedirs = some _ := congrArg (Option.map _) hcmd
  refine ⟨_, hconf, ?_⟩
  refine (openpackage_first .stderr readable_threedirs hconf ⟨rfl, "C:\\x;D:\\y".toList, rfl⟩
    ⟨rfl, "E:\\z".toList, rfl⟩ ['a'] ⟨by decide, by decide⟩).trans ?_
  decide +kernel

end GnuWindows.PkgConfig
