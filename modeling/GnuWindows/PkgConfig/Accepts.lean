/-
  GnuWindows.PkgConfig.Accepts — which versions `--atleast-version`, `--exact-version` and
  `--max-version` accept.

  The three set the same locals to the same values but for the operator and the version, and
  no other option reads or writes these two. So all runs with one of them and the same other
  arguments load the same packages, and differ in one comparison for each (`accepts_iff`).

  Proved: `uconfig_versions`, what one of the three accepts goes with what the others do.
-/
import GnuWindows.PkgConfig.Diagnostics
import GnuWindows.PkgConfig.Shuffle
import GnuWindows.PkgConfig.VersionTokens

namespace GnuWindows.PkgConfig

open GnuWindows.Lib.Hoare (Comp)

/-! ## One of the three options -/

/-- The options, and how they compare. -/
def versionoptions : List (S8 × Versop) :=
  [(S "-atleast-version", .GTE), (S "-exact-version", .EQ), (S "-max-version", .LTE)]

def Part.versions : Part → Bool
  | .positional _ => false
  | .option name _ => (versionoptions.map Prod.fst).contains name

/-- What `--atleast-version` and the others leave. -/
def Optstate.overridden (op : Versop) (version : S8) (st : Optstate) : Optstate :=
  { st with
    override_op := op
    override_version := version
    silent := true
    proc := { st.proc with recursive := false, ignore_versions := true } }

variable (op : Versop) (version : S8)

theorem withpath_overridden (value : S8) (st : Optstate) :
    withpath value (st.overridden op version) = (withpath value st).map (·.overridden op version) := by
  have hsearch : (st.overridden op version).proc.search = st.proc.search := rfl
  simp only [withpath, hsearch]
  cases prependpath st.proc.search value <;> rfl

theorem definevariable_overridden (value : S8) (st : Optstate) :
    definevariable value (st.overridden op version) = (definevariable value st).map (·.overridden op version) := by
  simp only [definevariable]
  split <;> rfl

/-- Only the three options do not commute with it. -/
theorem optiontable_overridden :
    ∀ e ∈ optiontable, (versionoptions.map Prod.fst).contains e.1 = true ∨ e.2.Commutes (·.overridden op version) := by
  simp only [optiontable, List.forall_mem_cons]
  iterate 3 refine ⟨Or.inr trivial, ?_⟩
  iterate 5 refine ⟨Or.inr fun _ => rfl, ?_⟩
  refine ⟨Or.inr fun _ _ => rfl, ?_⟩
  iterate 6 refine ⟨Or.inr fun _ => rfl, ?_⟩
  refine ⟨Or.inr (withpath_overridden op version), Or.inr fun _ _ => rfl, Or.inr fun _ => rfl,
    Or.inr (definevariable_overridden op version), ?_⟩
  iterate 2 refine ⟨Or.inr fun _ => rfl, ?_⟩
  refine ⟨Or.inr fun _ _ => rfl, ?_⟩
  iterate 3 refine ⟨Or.inl (by decide), ?_⟩
  iterate 8 refine ⟨Or.inr fun _ => rfl, ?_⟩
  exact List.forall_mem_nil _

theorem applyparts_overridden {l : List Part} (h : ∀ part ∈ l, part.versions = false) (st : Optstate) :
    applyparts l (st.overridden op version) = (applyparts l st).map (·.overridden op version) := by
  induction l generalizing st with
  | nil => rfl
  | cons part l ih =>
    obtain ⟨hpart, hl⟩ := List.forall_mem_cons.mp h
    have hone : applypart (st.overridden op version) part = (applypart st part).map (·.overridden op version) := by
      cases part with
      | positional arg => rfl
      | option name value =>
        exact applypart_commutes (fun _ hmem =>
          (optiontable_overridden op version _ hmem).resolve_left (Bool.eq_false_iff.mp hpart)) st value
    rw [applyparts_cons, applyparts_cons, hone]
    cases applypart st part with
    | error e => rfl
    | ok st' => exact ih hl st'

/-! ## A run with it -/

variable {op version}

/-- One of the options, with its version, before the other arguments. -/
def askversion (name version : S8) (args : List S8) : List S8 := (Part.option name (some version)).word :: args

theorem versionoptions_given {name : S8} (h : (name, op) ∈ versionoptions) (version : S8) :
    (Part.option name (some version)).Given ∧
      ∀ st, applypart st (.option name (some version)) = .ok (st.overridden op version) := by
  simp only [versionoptions, List.mem_cons, Prod.mk.injEq, List.not_mem_nil, or_false] at h
  rcases h with ⟨rfl, rfl⟩ | ⟨rfl, rfl⟩ | ⟨rfl, rfl⟩
  all_goals exact ⟨⟨by decide, fun h => by cases h⟩, fun _ => rfl⟩

theorem outcome_askversion {name : S8} (h : (name, op) ∈ versionoptions) (version : S8) {args : List S8}
    (hargs : ∀ part ∈ parts args, part.versions = false) (st : Optstate) :
    outcome (askversion name version args) st = (outcome args st).map (·.overridden op version) := by
  obtain ⟨hgiven, happly⟩ := versionoptions_given h version
  have hlacks : (Part.option name (some version)).lacks = false := by
    simp only [Part.lacks]
    split <;> rfl
  obtain ⟨hparts, hlast⟩ := parts_word hgiven hlacks args
  rw [outcome, outcome, askversion, hparts, hlast, applyparts_cons, happly]
  simp only [applyparts_overridden op version hargs]
  cases applyparts (parts args) st with
  | error e => rfl
  | ok st' => cases dashdashlast args <;> rfl

theorem checkversions_ok (err : Errbuf) (hop : op ≠ .ERR) (version : S8) (l : List Pkg) :
    checkversions err op version l = .ok () ↔
      ∀ p ∈ l, validcompare op (compareversions (bytes p.version) version) = true := by
  rw [checkversions, if_neg hop]
  induction l with
  | nil => exact iff_of_true rfl (List.forall_mem_nil _)
  | cons p l ih =>
    rw [List.forall_mem_cons, List.forM]
    cases hp : validcompare op (compareversions (bytes p.version) version) with
    | true =>
      rw [if_pos rfl, ← ih]
      exact ⟨fun h => ⟨rfl, h⟩, And.right⟩
    | false =>
      rw [if_neg Bool.false_ne_true]
      exact iff_of_false (fun h => by cases h) fun h => Bool.false_ne_true h.1

/-- The run has a meaning and exits with 0. -/
def Succeeds (mapfile : S8 → Filemap) (conf : Config) : Prop := ∃ e, uconfig mapfile conf = some e ∧ e.status = 0

theorem status_zero (e : Ended) : e.status = 0 ↔ e.result = .ok () := by
  unfold Ended.status
  cases e.result with
  | ok u => simp
  | error f => simp

/-- With any of the options it succeeds exactly when these packages compare as it says, or
    with none of them ever. -/
def Compares (mapfile : S8 → Filemap) (conf : Config) (args : List S8) (l : List Pkg) : Prop :=
  ∀ name op, (name, op) ∈ versionoptions → ∀ version,
    (Succeeds mapfile { conf with args := askversion name version args } ↔
      ∀ p ∈ l, validcompare op (compareversions (bytes p.version) version) = true)

def Refuses (mapfile : S8 → Filemap) (conf : Config) (args : List S8) : Prop :=
  ∀ name op, (name, op) ∈ versionoptions → ∀ version,
    ¬ Succeeds mapfile { conf with args := askversion name version args }

variable {mapfile : S8 → Filemap} {conf : Config} {args : List S8}

theorem succeeds_finish {name : S8} (h : (name, op) ∈ versionoptions) (version : S8)
    (hargs : ∀ part ∈ parts args, part.versions = false) :
    Succeeds mapfile { conf with args := askversion name version args } ↔
      ∃ e, finish mapfile conf ((outcome args (newoptstate conf)).map (·.overridden op version)) = some e ∧
        e.result = .ok () := by
  have hrun : uconfig mapfile { conf with args := askversion name version args } =
      finish mapfile conf ((outcome args (newoptstate conf)).map (·.overridden op version)) := by
    rw [← outcome_askversion h version hargs]
    exact uconfig_finish mapfile { conf with args := askversion name version args }
  simp only [Succeeds, hrun, status_zero]

theorem versionop_ne {name : S8} (h : (name, op) ∈ versionoptions) : op ≠ .ERR := by
  simp only [versionoptions, List.mem_cons, Prod.mk.injEq, List.not_mem_nil, or_false] at h
  rcases h with ⟨-, rfl⟩ | ⟨-, rfl⟩ | ⟨-, rfl⟩ <;> exact Versop.noConfusion

/-- The checks and the output, with one of the options. -/
theorem conclude_overridden {st : Optstate} {proc : Processor} (hop : op ≠ .ERR) (version : S8) :
    ((conclude conf (st.overridden op version) proc).run stdoutbuf).1 = .ok () ↔
      (endprocessor proc .null = .ok () ∧ checkcount .null proc.pkgs = .ok () ∧
        ((report conf (st.overridden .ERR []) proc).run stdoutbuf).1 = .ok ()) ∧
      ∀ p ∈ proc.pkgs.list, validcompare op (compareversions (bytes p.version) version) = true := by
  rw [← checkversions_ok .null hop version]
  have hreport : report conf (st.overridden op version) proc = report conf (st.overridden .ERR []) proc := rfl
  have hcheck : checkall (st.overridden op version) proc =
      (do endprocessor proc .null; checkcount .null proc.pkgs; checkversions .null op version proc.pkgs.list) := rfl
  rw [conclude, Comp.run_bind, hcheck, hreport]
  cases endprocessor proc .null with
  | error f => exact iff_of_false (fun h => by cases h) fun h => by cases h.1.1
  | ok u =>
    cases checkcount .null proc.pkgs with
    | error f => exact iff_of_false (fun h => by cases h) fun h => by cases h.1.2.1
    | ok u =>
      cases checkversions .null op version proc.pkgs.list with
      | error f => exact iff_of_false (fun h => by cases h) fun h => by cases h.2
      | ok u => exact ⟨fun h => ⟨⟨rfl, rfl, h⟩, rfl⟩, fun h => h.1.2.2⟩

variable (mapfile conf) in
theorem compares_or_refuses (hargs : ∀ part ∈ parts args, part.versions = false) :
    Refuses mapfile conf args ∨ ∃ l, Compares mapfile conf args l := by
  cases hout : outcome args (newoptstate conf) with
  | error e =>
    have hiff {name : S8} {op : Versop} (h : (name, op) ∈ versionoptions) (version : S8) :
        Succeeds mapfile { conf with args := askversion name version args } ↔
          ∃ e', finish mapfile conf (.error e) = some e' ∧ e'.result = .ok () := by
      rw [succeeds_finish h version hargs, hout]
      rfl
    by_cases hend : ∃ e', finish mapfile conf (.error e) = some e' ∧ e'.result = .ok ()
    · exact Or.inr ⟨[], fun name op h version => iff_of_true ((hiff h version).mpr hend) (List.forall_mem_nil _)⟩
    · exact Or.inl fun name op h version hs => hend ((hiff h version).mp hs)
  | ok st =>
    have hiff {name : S8} {op : Versop} (h : (name, op) ∈ versionoptions) (version : S8) :
        Succeeds mapfile { conf with args := askversion name version args } ↔
          ((afteroptions mapfile conf (st.overridden op version)).run stdoutbuf).1 = .ok () := by
      rw [succeeds_finish h version hargs, hout]
      exact ⟨fun hs => by obtain ⟨e, he, hok⟩ := hs; cases he; exact hok, fun hok => ⟨_, rfl, hok⟩⟩
    have hproc (op : Versop) (version : S8) :
        processargs mapfile (st.overridden op version).proc (st.overridden op version).args =
          processargs mapfile (st.overridden .ERR []).proc st.args := rfl
    cases hp : processargs mapfile (st.overridden .ERR []).proc st.args with
    | error f =>
      refine Or.inl fun name op h version hs => ?_
      have hrun := (hiff h version).mp hs
      rw [afteroptions_fails conf ((hproc op version).trans hp)] at hrun
      cases hrun
    | ok proc =>
      by_cases hrest : endprocessor proc .null = .ok () ∧ checkcount .null proc.pkgs = .ok () ∧
          ((report conf (st.overridden .ERR []) proc).run stdoutbuf).1 = .ok ()
      · refine Or.inr ⟨proc.pkgs.list, fun name op h version => ?_⟩
        rw [hiff h version, afteroptions_ok ((hproc op version).trans hp), conclude_overridden (versionop_ne h)]
        exact ⟨And.right, fun hall => ⟨hrest, hall⟩⟩
      · refine Or.inl fun name op h version hs => hrest ?_
        have hrun := (hiff h version).mp hs
        rw [afteroptions_ok ((hproc op version).trans hp), conclude_overridden (versionop_ne h)] at hrun
        exact hrun.1

/-! ## What is accepted -/

/-- For all files, every configuration and every other arguments without one of the three
    options: `--exact-version` accepts the versions that `--atleast-version` and
    `--max-version` both accept; with a version `--atleast-version` accepts every older
    one, and `--max-version` every newer one. -/
theorem uconfig_versions (mapfile : S8 → Filemap) (conf : Config) (args : List S8)
    (hargs : ∀ part ∈ parts args, part.versions = false) :
    (∀ version, Succeeds mapfile { conf with args := askversion (S "-exact-version") version args } ↔
      Succeeds mapfile { conf with args := askversion (S "-atleast-version") version args } ∧
        Succeeds mapfile { conf with args := askversion (S "-max-version") version args }) ∧
    (∀ version older, compareversions older version ≤ 0 →
      Succeeds mapfile { conf with args := askversion (S "-atleast-version") version args } →
        Succeeds mapfile { conf with args := askversion (S "-atleast-version") older args }) ∧
    ∀ version newer, compareversions version newer ≤ 0 →
      Succeeds mapfile { conf with args := askversion (S "-max-version") version args } →
        Succeeds mapfile { conf with args := askversion (S "-max-version") newer args } := by
  have hge : (S "-atleast-version", Versop.GTE) ∈ versionoptions := by decide
  have heq : (S "-exact-version", Versop.EQ) ∈ versionoptions := by decide
  have hle : (S "-max-version", Versop.LTE) ∈ versionoptions := by decide
  rcases compares_or_refuses mapfile conf hargs with hno | ⟨l, hl⟩
  · exact ⟨fun version => iff_of_false (hno _ _ heq version) fun h => hno _ _ hge version h.1,
      fun version _ _ h => (hno _ _ hge version h).elim, fun version _ _ h => (hno _ _ hle version h).elim⟩
  · refine ⟨fun version => ?_, fun version older hold => ?_, fun version newer hnew => ?_⟩
    · rw [hl _ _ heq, hl _ _ hge, hl _ _ hle, ← forall₂_and]
      refine forall₂_congr fun p _ => ?_
      simp only [validcompare, beq_iff_eq, decide_eq_true_eq]
      omega
    · rw [hl _ _ hge, hl _ _ hge]
      refine fun h p hp => ?_
      have hvalid := h p hp
      simp only [validcompare, decide_eq_true_eq] at hvalid ⊢
      have hswap := compareversions_swap (bytes p.version) version
      have htrans := compareversions_trans hold (by omega : compareversions version (bytes p.version) ≤ 0)
      have := compareversions_swap older (bytes p.version)
      omega
    · rw [hl _ _ hle, hl _ _ hle]
      refine fun h p hp => ?_
      have hvalid := h p hp
      simp only [validcompare, decide_eq_true_eq] at hvalid ⊢
      exact compareversions_trans hvalid hnew

theorem uconfig_versions_x :
    Succeeds quotefiles (plainconf (askversion (S "-exact-version") (S "1") [S "x"])) ↔
      Succeeds quotefiles (plainconf (askversion (S "-atleast-version") (S "1") [S "x"])) ∧
        Succeeds quotefiles (plainconf (askversion (S "-max-version") (S "1") [S "x"])) :=
  (uconfig_versions quotefiles (plainconf []) [S "x"] (by decide +kernel)).1 (S "1")

end GnuWindows.PkgConfig
