import Mathlib.Data.List.TakeWhile
import ReadonlyLint.Proofs.Directories
import ReadonlyLint.Proofs.FixOffsets

/-!
Fixing a project beside analyzing it. Both go through the same files, but an analysis records a file
that cannot be read and goes on, while a run of fixes ends there. Up to the first such file, the run
follows the reports of the analysis: it rewrites the files with findings, each to what its reported
fixes make of it, and nothing else (`FixRun.Follows`).
-/
namespace ReadonlyLint

/-! ## Totals -/

theorem Summary.findings_addFile (s : Summary) (file : FileReport) :
    (s.addFile file).memberFindings + (s.addFile file).structFindings =
      s.memberFindings + s.structFindings + file.findings.length := by
  have hfold : ∀ (l : List Finding) (s : Summary),
      (l.foldl addFinding s).memberFindings + (l.foldl addFinding s).structFindings =
        s.memberFindings + s.structFindings + l.length := by
    intro l
    induction l with
    | nil => exact fun _ => rfl
    | cons f l ih =>
      intro s
      rw [List.foldl_cons, ih, List.length_cons, addFinding]
      split
      · dsimp only
        omega
      · dsimp only
        omega
  exact hfold file.findings _

/-- The totals count every finding once. -/
theorem Results.findingCount_ofFiles (root : String) (files : List FileReport)
    (failures : List FileFailure) :
    (Results.ofFiles root files failures).findingCount =
      (files.flatMap (·.findings)).length := by
  have hfold : ∀ (l : List FileReport) (s : Summary),
      (l.foldl Summary.addFile s).memberFindings + (l.foldl Summary.addFile s).structFindings =
        s.memberFindings + s.structFindings + (l.flatMap (·.findings)).length := by
    intro l
    induction l with
    | nil => exact fun _ => rfl
    | cons file l ih =>
      intro s
      rw [List.foldl_cons, ih, Summary.findings_addFile, List.flatMap_cons, List.length_append]
      omega
  have htotal := hfold files { filesAnalyzed := files.length, filesFailed := failures.length }
  simpa [findingCount, Results.ofFiles, Summary.ofFiles] using htotal

/-! ## The outcome of a file -/

/-- Every node that is read from a source starts at a character of the source. -/
def TreeReader.PlacesNodes (readTree : TreeReader) : Prop :=
  ∀ source offset, (readTree source).StartsAt offset → isBoundary offset source.toList = true

/-- The report on a source. -/
def TreeReader.report (readTree : TreeReader) (options : AnalysisOptions) (path source : String) :
    FileReport :=
  .addFound options { path } (StructDecl.ofTree (readTree source))

theorem TreeReader.path_report (readTree : TreeReader) (options : AnalysisOptions)
    (path source : String) : (readTree.report options path source).path = path :=
  FileReport.path_addFound options { path } _

/-- Explanations change no finding. -/
theorem TreeReader.findings_report (readTree : TreeReader) (options : AnalysisOptions)
    (explain : Bool) (path source : String) :
    (readTree.report { options with explain } path source).findings =
      (readTree.report options path source).findings := by
  unfold report
  rw [FileReport.findings_addFound, FileReport.findings_addFound]
  rfl

namespace Directory

def isReadable (d : Directory) (path : String) : Bool := (d.read path).isOk

/-- What an analysis makes of a file. -/
def outcome (d : Directory) (readTree : TreeReader) (options : AnalysisOptions) (path : String) :
    Except Failure FileReport :=
  match d.read path with
  | .error cause => .error (.access path cause)
  | .ok source => .ok (readTree.report options path source)

/-- The reports on the files that can be read. -/
def reports (d : Directory) (readTree : TreeReader) (options : AnalysisOptions)
    (paths : List String) : List FileReport :=
  paths.filterMap fun path => (d.outcome readTree options path).toOption

/-- Why a file cannot be read. -/
def failure? (d : Directory) (path : String) : Option Failure :=
  match d.read path with
  | .error cause => some (.access path cause)
  | .ok _ => none

section Outcome

variable {d : Directory} {path : String}

theorem outcome_of_read {source : String} (h : d.read path = .ok source) (readTree : TreeReader)
    (options : AnalysisOptions) :
    d.outcome readTree options path = .ok (readTree.report options path source) := by
  unfold outcome
  rw [h]

theorem failure?_eq_none_iff : d.failure? path = none ↔ d.isReadable path = true := by
  unfold failure? isReadable
  rcases d.read path with cause | source
  · simp [Except.isOk, Except.toBool]
  · simp [Except.isOk, Except.toBool]

theorem exists_outcome_of_isReadable (h : d.isReadable path = true) (readTree : TreeReader)
    (options : AnalysisOptions) : ∃ r, d.outcome readTree options path = .ok r := by
  unfold isReadable at h
  rcases hread : d.read path with cause | source
  · rw [hread] at h
    cases h
  · exact ⟨_, outcome_of_read hread readTree options⟩

theorem reports_cons {readTree : TreeReader} {options : AnalysisOptions} {r : FileReport}
    (h : d.outcome readTree options path = .ok r) (paths : List String) :
    d.reports readTree options (path :: paths) = r :: d.reports readTree options paths :=
  List.filterMap_cons_some (by rw [h]; rfl)

end Outcome

/-- How often the analysis of a file asks the signal: once before the file is read, and then for the
structs in it. -/
def questions (d : Directory) (readTree : TreeReader) (path : String) : Nat :=
  match d.read path with
  | .error _ => 1
  | .ok source => 1 + FileReport.questions (StructDecl.ofTree (readTree source))

theorem asks_analyzeFile (d : Directory) (readTree : TreeReader) (options : AnalysisOptions)
    (path : String) :
    Cancellable.Asks (d.analyzeFile readTree options path) (d.questions readTree path)
      (d.outcome readTree options path) := by
  unfold analyzeFile questions outcome
  rcases d.read path with cause | source
  · exact Cancellable.asks_check.map fun _ => Except.error (Failure.access path cause)
  · exact Cancellable.asks_check.bind
      ((FileReport.asks_ofTree path (readTree source) options).map Except.ok)

theorem yields_analyzeFile (d : Directory) (readTree : TreeReader) (options : AnalysisOptions)
    (path : String) :
    Cancellable.Yields (d.analyzeFile readTree options path) (d.outcome readTree options path) :=
  (d.asks_analyzeFile readTree options path).yields

/-- What a run that is not stopped makes of files. -/
theorem yields_analyzeFiles (d : Directory) (readTree : TreeReader) (options : AnalysisOptions)
    (root : String) (paths : List String) :
    Cancellable.Yields (d.analyzeFiles readTree options root paths)
      (collect root (paths.map fun path => (path, d.outcome readTree options path))) := by
  have hpath : ∀ path, Cancellable.Yields
      (do return (path, ← d.analyzeFile readTree options path))
      (path, d.outcome readTree options path) := fun path =>
    (d.yields_analyzeFile readTree options path).bind (Cancellable.yields_pure _)
  exact (Cancellable.Yields.mapM hpath paths).bind (Cancellable.yields_pure _)

/-- What an analysis that is not stopped makes of a project. -/
theorem yields_analyze (d : Directory) (readTree : TreeReader) (settings : Settings)
    (explain : Bool) {walk : Walker} {root : String} {paths : List String}
    (hpaths : walk d settings.ignorePatterns root = some paths) :
    Cancellable.Yields (d.analyze readTree settings explain root walk)
      (.ok (collect root
        (paths.map fun path => (path, d.outcome readTree (settings.options explain) path)))) := by
  unfold analyze
  rw [hpaths]
  exact (d.yields_analyzeFiles readTree (settings.options explain) root paths).bind
    (Cancellable.yields_pure _)

theorem files_collect (d : Directory) (readTree : TreeReader) (options : AnalysisOptions)
    (root : String) (paths : List String) :
    (collect root (paths.map fun path => (path, d.outcome readTree options path))).files =
      d.reports readTree options paths := by
  unfold collect Results.ofFiles reports
  rw [List.filterMap_map]
  rfl

theorem findingCount_collect (root : String)
    (outcomes : List (String × Except Failure FileReport)) :
    (collect root outcomes).findingCount =
      ((collect root outcomes).files.flatMap (·.findings)).length :=
  Results.findingCount_ofFiles root _ _

theorem failures_collect (d : Directory) (readTree : TreeReader) (options : AnalysisOptions)
    (root : String) (paths : List String) :
    (collect root (paths.map fun path => (path, d.outcome readTree options path))).failures =
      paths.filterMap fun path =>
        (d.failure? path).map fun cause => { path, message := cause.message } := by
  unfold collect Results.ofFiles
  dsimp only
  rw [List.filterMap_map]
  refine List.filterMap_congr fun path _ => ?_
  simp only [Function.comp_apply]
  unfold outcome failure?
  rcases d.read path with cause | source <;> rfl

end Directory

/-! ## Following reports -/

/-- The run follows the reports: it names the files with findings and how many each has, it has
rewritten each of them to what its fixes make of its text, and every other file is as before. -/
structure FixRun.Follows (run : FixRun) (d : Directory) (reports : List FileReport) : Prop where
  fixed : run.fixed =
    (reports.filter (·.findings ≠ [])).map fun r => (r.path, r.findings.length)
  located : ∀ path, run.directory.locate path = d.locate path
  rewritten : ∀ r ∈ reports, r.findings ≠ [] → ∃ place source text,
    d.locate r.path = .ok place ∧ d.content? place = some source.toUTF8 ∧
    Edit.applyAll source r.edits = .ok text ∧ text ≠ source ∧
    run.directory.content? place = some text.toUTF8
  untouched : ∀ place, (∀ r ∈ reports, r.findings ≠ [] → d.locate r.path ≠ .ok place) →
    run.directory.content? place = d.content? place

namespace FixRun

theorem follows_nil (d : Directory) (failure : Option Failure) :
    FixRun.Follows { directory := d, failure } d [] :=
  ⟨rfl, fun _ => rfl, by simp, fun _ _ => rfl⟩

/-- A file without findings asks for nothing. -/
theorem Follows.skip {run : FixRun} {d : Directory} {reports : List FileReport}
    (h : run.Follows d reports) {r : FileReport} (hr : r.findings = []) :
    run.Follows d (r :: reports) := by
  refine ⟨?_, h.located, ?_, ?_⟩
  · rw [h.fixed, List.filter_cons_of_neg (by simp [hr])]
  · intro x hx hfindings
    rcases List.mem_cons.mp hx with rfl | hx
    · exact absurd hr hfindings
    · exact h.rewritten x hx hfindings
  · intro place hplace
    exact h.untouched place fun x hx => hplace x (List.mem_cons_of_mem r hx)

/-- A file with findings is rewritten first, and what follows does not come back to it. -/
theorem Follows.rewrite {run : FixRun} {d : Directory} {reports : List FileReport} {r : FileReport}
    {place : List String} {source text : String} (hplace : d.locate r.path = .ok place)
    (hsource : d.content? place = some source.toUTF8) (hr : r.findings ≠ [])
    (hfix : Edit.applyAll source r.edits = .ok text) (hne : text ≠ source)
    (hothers : ∀ x ∈ reports, d.locate x.path ≠ .ok place)
    (h : run.Follows (d.put place text.toUTF8) reports) :
    { run with fixed := (r.path, r.findings.length) :: run.fixed }.Follows d (r :: reports) := by
  have hfile := Directory.isFile_of_content? hsource
  have hlocate := (Directory.samePlaces_put hfile text.toUTF8).locate
  have hcontent := Directory.content?_put hfile text.toUTF8
  refine ⟨?_, ?_, ?_, ?_⟩
  · rw [List.filter_cons_of_pos (by simpa using hr), List.map_cons, ← h.fixed]
  · intro path
    exact (h.located path).trans (hlocate path)
  · intro x hx hfindings
    rcases List.mem_cons.mp hx with rfl | hx
    · -- no later report leads to the place, so the text stays
      refine ⟨place, source, text, hplace, hsource, hfix, hne, ?_⟩
      have hlast := h.untouched place fun y hy _ => by
        rw [hlocate]
        exact hothers y hy
      rw [hcontent, if_pos rfl] at hlast
      exact hlast
    · -- a later file is elsewhere, so it was not yet touched when the rest of the run began
      obtain ⟨at', source', text', hat, hold, hrest⟩ := h.rewritten x hx hfindings
      rw [hlocate] at hat
      have hother : at' ≠ place := fun heq => hothers x hx (heq ▸ hat)
      rw [hcontent, if_neg hother] at hold
      exact ⟨at', source', text', hat, hold, hrest⟩
  · intro other hother
    have hne : other ≠ place := fun heq => hother r List.mem_cons_self hr (heq ▸ hplace)
    have hlast := h.untouched other fun x hx hfindings => by
      rw [hlocate]
      exact hother x (List.mem_cons_of_mem r hx) hfindings
    rw [hcontent, if_neg hne] at hlast
    exact hlast

theorem Follows.filesChanged {run : FixRun} {d : Directory} {reports : List FileReport}
    (h : run.Follows d reports) :
    run.filesChanged = (reports.filter (·.findings ≠ [])).length := by
  rw [FixRun.filesChanged, h.fixed, List.length_map]

theorem Follows.fixesApplied {run : FixRun} {d : Directory} {reports : List FileReport}
    (h : run.Follows d reports) :
    run.fixesApplied = (reports.flatMap (·.findings)).length := by
  have hfold : ∀ (l : List FileReport) (n : Nat),
      ((l.filter (·.findings ≠ [])).map fun r => (r.path, r.findings.length)).foldl
          (fun n file => n + file.2) n =
        n + (l.flatMap (·.findings)).length := by
    intro l
    induction l with
    | nil => exact fun _ => rfl
    | cons r l ih =>
      intro n
      rw [List.flatMap_cons, List.length_append]
      by_cases hr : r.findings = []
      · rw [List.filter_cons_of_neg (by simp [hr]), ih, hr, List.length_nil, Nat.zero_add]
      · rw [List.filter_cons_of_pos (by simpa using hr), List.map_cons, List.foldl_cons, ih,
          Nat.add_assoc]
  rw [FixRun.fixesApplied, h.fixed, hfold, Nat.zero_add]

end FixRun

/-! ## The run -/

namespace Directory

/-- No two of the paths lead to the same place. -/
def Separates (d : Directory) (paths : List String) : Prop :=
  paths.Pairwise fun a b => ∀ place, d.locate a = .ok place → d.locate b ≠ .ok place

theorem Separates.put {d : Directory} {paths : List String} (h : d.Separates paths)
    {place : List String} (hfile : d.isFile place = true) (content : ByteArray) :
    (d.put place content).Separates paths := by
  have hlocate := (samePlaces_put hfile content).locate
  refine h.imp fun hab other ha => ?_
  rw [hlocate] at ha ⊢
  exact hab other ha

theorem path_of_mem_reports {d : Directory} {readTree : TreeReader} {options : AnalysisOptions}
    {paths : List String} {r : FileReport} (hr : r ∈ d.reports readTree options paths) :
    r.path ∈ paths := by
  obtain ⟨path, hpath, hsome⟩ := List.mem_filterMap.mp hr
  unfold outcome at hsome
  split at hsome
  · cases hsome
  · cases hsome
    rw [TreeReader.path_report]
    exact hpath

/-- What the files are read as is all that matters of a directory. -/
theorem reports_congr {d d' : Directory} {paths : List String}
    (h : ∀ path ∈ paths, d'.read path = d.read path) (readTree : TreeReader)
    (options : AnalysisOptions) :
    d'.reports readTree options (paths.takeWhile d'.isReadable) =
        d.reports readTree options (paths.takeWhile d.isReadable) ∧
      paths.findSome? d'.failure? = paths.findSome? d.failure? := by
  induction paths with
  | nil => exact ⟨rfl, rfl⟩
  | cons path paths ih =>
    obtain ⟨hpath, hpaths⟩ := List.forall_mem_cons.mp h
    obtain ⟨hreports, hfailure⟩ := ih hpaths
    have hreadable : d'.isReadable path = d.isReadable path := by rw [isReadable, hpath]; rfl
    have houtcome : d'.outcome readTree options path = d.outcome readTree options path := by
      rw [outcome, hpath]
      rfl
    have hcause : d'.failure? path = d.failure? path := by rw [failure?, hpath]; rfl
    rw [List.findSome?_cons, List.findSome?_cons, hcause, hfailure, List.takeWhile_cons,
      List.takeWhile_cons, hreadable]
    refine ⟨?_, rfl⟩
    split
    · unfold reports at hreports ⊢
      rw [List.filterMap_cons, List.filterMap_cons, houtcome, hreports]
    · rfl

/-! ### One file of a run -/

section Step

variable {d : Directory} {readTree : TreeReader} {options : AnalysisOptions} {path : String}
  (paths : List String)

theorem fixFiles_of_error {cause : AccessError} (hread : d.read path = .error cause) :
    fixFiles readTree options false (path :: paths) d .never =
      { directory := d, failure := some (.access path cause) } := by
  have hfile : d.fixFile readTree options path .never = .error (.access path cause) := by
    unfold fixFile
    simp only [hread]
  rw [fixFiles, hfile]

variable {source text : String} (hread : d.read path = .ok source)
  (hfix : (readTree.report options path source).fix source = .ok text)
include hread hfix

omit paths in
theorem fixFile_of_read :
    d.fixFile readTree options path .never =
      .ok ((text, (readTree.report options path source).findings.length), .never) := by
  have hreport : FileReport.ofTree path (readTree source) options .never =
      some (readTree.report options path source, .never) :=
    (FileReport.yields_ofTree path (readTree source) options).never
  unfold fixFile
  simp only [hread, hreport, hfix]

theorem fixFiles_of_clean (hclean : (readTree.report options path source).findings = []) :
    fixFiles readTree options false (path :: paths) d .never =
      fixFiles readTree options false paths d .never := by
  rw [fixFiles, fixFile_of_read hread hfix]
  simp only [hclean, List.length_nil, if_pos]

theorem fixFiles_of_findings {place : List String} (hplace : d.locate path = .ok place)
    (hfile : d.isFile place = true)
    (hfindings : (readTree.report options path source).findings ≠ []) :
    fixFiles readTree options false (path :: paths) d .never =
      let run := fixFiles readTree options false paths (d.put place text.toUTF8) .never
      { run with
        fixed := (path, (readTree.report options path source).findings.length) :: run.fixed } := by
  have hsave : d.save false path text = .ok (d.put place text.toUTF8) := by
    rw [save, if_neg (by decide), write_of_locate hplace hfile]
    rfl
  have hcount : (readTree.report options path source).findings.length ≠ 0 :=
    fun hzero => hfindings (List.eq_nil_of_length_eq_zero hzero)
  rw [fixFiles, fixFile_of_read hread hfix]
  simp only [if_neg hcount, hsave]

end Step

/-- A run of fixes follows the reports on the files before the first that cannot be read, and ends
with the cause of that. -/
theorem follows_fixFiles {readTree : TreeReader} (hreader : readTree.PlacesNodes)
    (options : AnalysisOptions) (explain : Bool) {paths : List String} {d : Directory}
    (hpaths : d.Separates paths) :
    (fixFiles readTree options false paths d .never).Follows d
        (d.reports readTree { options with explain } (paths.takeWhile d.isReadable)) ∧
      (fixFiles readTree options false paths d .never).failure = paths.findSome? d.failure? := by
  -- The induction is on the files; `d` is the directory in which the rest of the run starts.
  induction paths generalizing d with
  | nil => exact ⟨FixRun.follows_nil d none, rfl⟩
  | cons path paths ih =>
    obtain ⟨hpath, htail⟩ := List.pairwise_cons.mp hpaths
    rcases hread : d.read path with cause | source
    · -- the run ends here
      have hunreadable : d.isReadable path = false := by rw [isReadable, hread]; rfl
      have hfailure : d.failure? path = some (.access path cause) := by rw [failure?, hread]
      rw [fixFiles_of_error paths hread, List.takeWhile_cons_of_neg (by simp [hunreadable]),
        List.findSome?_cons, hfailure]
      exact ⟨FixRun.follows_nil d _, rfl⟩
    · have hreadable : d.isReadable path = true := by rw [isReadable, hread]; rfl
      have hnone : d.failure? path = none := failure?_eq_none_iff.mpr hreadable
      have hreports : d.reports readTree { options with explain }
            ((path :: paths).takeWhile d.isReadable) =
          readTree.report { options with explain } path source ::
            d.reports readTree { options with explain } (paths.takeWhile d.isReadable) := by
        rw [List.takeWhile_cons_of_pos hreadable, reports_cons (outcome_of_read hread _ _)]
      have hfindings := readTree.findings_report options explain path source
      obtain ⟨text, hfix, hchanges⟩ := FileReport.fix_addFound (hreader source) options path
      rw [hreports, List.findSome?_cons, hnone]
      by_cases hclean : (readTree.report options path source).findings = []
      · rw [fixFiles_of_clean paths hread hfix hclean]
        obtain ⟨hfollows, hfailure⟩ := ih htail
        exact ⟨hfollows.skip (hfindings.trans hclean), hfailure⟩
      · obtain ⟨place, hplace, hsource⟩ := read_eq_ok_iff.mp hread
        have hfile := isFile_of_content? hsource
        have hothers : ∀ other ∈ paths, d.locate other ≠ .ok place :=
          fun other hother => hpath other hother place hplace
        -- the files still to come are read as before
        obtain ⟨hsame, hsameFailure⟩ := reports_congr
          (fun other hother => read_put_of_ne hfile text.toUTF8 (hothers other hother)) readTree
          { options with explain }
        obtain ⟨hfollows, hfailure⟩ := ih (Separates.put htail hfile text.toUTF8)
        rw [hsame] at hfollows
        rw [hsameFailure] at hfailure
        rw [fixFiles_of_findings paths hread hfix hplace hfile hclean]
        refine ⟨?_, hfailure⟩
        have hstep := hfollows.rewrite (r := readTree.report { options with explain } path source)
          (by rw [TreeReader.path_report]; exact hplace) hsource (by rw [hfindings]; exact hclean)
          (by rw [FileReport.edits, hfindings]; exact hfix) (hchanges hclean)
          (fun x hx => hothers x.path (List.takeWhile_subset _ (path_of_mem_reports hx)))
        rw [TreeReader.path_report, hfindings] at hstep
        exact hstep

/-- The first reports of a project are those on the files before the first that cannot be read. -/
theorem take_reports (d : Directory) (readTree : TreeReader) (options : AnalysisOptions)
    (paths : List String) :
    (d.reports readTree options paths).take (paths.takeWhile d.isReadable).length =
      d.reports readTree options (paths.takeWhile d.isReadable) := by
  induction paths with
  | nil => rfl
  | cons path paths ih =>
    by_cases hreadable : d.isReadable path = true
    · obtain ⟨r, hr⟩ := exists_outcome_of_isReadable hreadable readTree options
      rw [List.takeWhile_cons_of_pos hreadable, reports_cons hr, reports_cons hr,
        List.length_cons, List.take_succ_cons, ih]
    · rw [List.takeWhile_cons_of_neg hreadable]
      rfl

end Directory

/-- Fixing a project follows its analysis up to the first file that cannot be read, and fails with
what the analysis records of that file. When there is no such file, it rewrites just the files with
findings, and its totals are those of the analysis. This holds of any way to list the files, as long
as both use the same and it lists no file under two paths. -/
theorem fix_follows_analyze_up_to_the_first_failure {readTree : TreeReader}
    (hreader : readTree.PlacesNodes) (walk : Walker) (d : Directory) (settings : Settings)
    (root : String) {paths : List String}
    (hpaths : walk d settings.ignorePatterns root = some paths) (hdistinct : d.Separates paths)
    (explain : Bool) :
    let run := d.fix readTree settings false root .never walk
    ∃ results, (d.analyze readTree settings explain root walk).result? .never = some (.ok results) ∧
      run.Follows d (results.files.take (paths.takeWhile d.isReadable).length) ∧
      run.failure.map (·.message) = results.failures.head?.map (·.message) ∧
      (results.failures = [] →
        run.failure = none ∧ run.Follows d results.files ∧
        run.fixesApplied = results.findingCount ∧
        run.filesChanged = (results.files.filter (·.findings ≠ [])).length) := by
  intro run
  have hrun : run = Directory.fixFiles readTree (settings.options false) false paths d .never := by
    unfold run Directory.fix
    rw [hpaths]
  obtain ⟨hfollows, hfailure⟩ :=
    Directory.follows_fixFiles hreader (settings.options false) explain hdistinct
  rw [← hrun] at hfollows hfailure
  have hanalyze := d.yields_analyze readTree settings explain hpaths
  refine ⟨_, hanalyze.result?_never, ?_, ?_, ?_⟩
  · rw [Directory.files_collect, Directory.take_reports]
    exact hfollows
  · rw [hfailure, Directory.failures_collect, List.head?_filterMap, List.map_findSome?,
      List.map_findSome?]
    congr 1
    funext path
    simp [Function.comp_def]
  · intro hnone
    rw [Directory.failures_collect] at hnone
    have hunfailed : ∀ path ∈ paths, d.failure? path = none := by
      intro path hpath
      exact Option.map_eq_none_iff.mp (List.filterMap_eq_nil_iff.mp hnone path hpath)
    have hall : paths.takeWhile d.isReadable = paths :=
      List.takeWhile_eq_self_iff.mpr fun path hpath =>
        Directory.failure?_eq_none_iff.mp (hunfailed path hpath)
    rw [hall] at hfollows
    rw [Directory.findingCount_collect, Directory.files_collect]
    refine ⟨?_, hfollows, hfollows.fixesApplied, hfollows.filesChanged⟩
    rw [hfailure]
    exact List.findSome?_eq_none_iff.mpr hunfailed

/-! ## Two files -/

/-- A directory with the files `A.cs` and `B.cs`. -/
def pairOf (first second : ByteArray) : Directory :=
  { files := [(["A.cs"], first), (["B.cs"], second)] }

theorem locate_pairOf (first second : ByteArray) :
    (pairOf first second).locate "." = .ok [] ∧
      (pairOf first second).locate "./A.cs" = .ok ["A.cs"] ∧
      (pairOf first second).locate "./B.cs" = .ok ["B.cs"] := by
  unfold Directory.locate
  rw [Path.parts_eq, Path.parts_eq, Path.parts_eq]
  exact ⟨rfl, rfl, rfl⟩

/-- The sources of a directory whose files, or links to files, are `A.cs` and `B.cs`. -/
theorem sources?_of_filesBelow {d : Directory} (hroot : d.locate "." = .ok [])
    (hfile : d.isFile [] = false)
    (hbelow : d.filesBelow { path := ".", place := [] } = [["A.cs"], ["B.cs"]]) :
    d.sources? [] "." = some ["./A.cs", "./B.cs"] := by
  have hsources : (["./A.cs", "./B.cs"].filter fun path =>
      !Path.isTooLong path && Directory.isSource [] path) = ["./A.cs", "./B.cs"] := by
    unfold Directory.isSource
    simp only [Path.extension?_eq, Path.fileName?, Path.parts_eq]
    decide +kernel
  have hlists : (Directory.above []).all d.hasSoundLists = true := rfl
  unfold Directory.sources?
  rw [hroot]
  simp only [Except.toOption, Option.bind_eq_bind, Option.bind_some, List.filterMap_nil, hfile,
    hlists, hbelow, if_true, Bool.false_eq_true, if_false]
  exact congrArg some hsources

theorem sources?_pairOf (first second : ByteArray) :
    (pairOf first second).sources? [] "." = some ["./A.cs", "./B.cs"] := by
  have hsorted : [["A.cs"], ["B.cs"]].Pairwise (Directory.precedes · ·) := by decide +kernel
  exact sources?_of_filesBelow (locate_pairOf first second).1 rfl
    (List.mergeSort_of_pairwise hsorted)

theorem separates_pairOf (first second : ByteArray) :
    (pairOf first second).Separates ["./A.cs", "./B.cs"] := by
  obtain ⟨-, hfirst, hsecond⟩ := locate_pairOf first second
  refine List.pairwise_pair.mpr fun place hplace => ?_
  rw [hfirst] at hplace
  cases hplace
  rw [hsecond]
  simp

/-- The file `struct S { void M() { } }`. -/
def idleFile : Node := .structOf [.voidMethod "M" 11 (.emptyBlock 20)]

/-- The file `readonly struct S { void M() { } }`. -/
def readonlyIdleFile : Node :=
  let body := .tree (.other "declaration_list") "\x7b void M() \x7b \x7d \x7d" 18
    [.word .openBrace "\x7b" 18, .voidMethod "M" 20 (.emptyBlock 29), .word .closeBrace "\x7d" 33]
    (some .body)
  let text := "readonly struct S " ++ body.text
  .tree (.other "compilation_unit") text 0
    [.tree .structDeclaration text 0
      [.tree .modifier "readonly" 0 [.word .readonlyToken "readonly" 0],
       .word .structToken "struct" 9, .tree .identifier "S" 16 [] (some .name), body]]

/-- Reads these two sources, and any other as a file without structs. -/
def idleReader : TreeReader := fun source =>
  if source = idleFile.text then idleFile
  else if source = readonlyIdleFile.text then readonlyIdleFile
  else .tree (.other "compilation_unit") source 0

theorem placesNodes_idleReader : idleReader.PlacesNodes := by
  have hfiles : ∀ file ∈ [idleFile, readonlyIdleFile], ∀ n ∈ file.preorder,
      isBoundary n.span.start file.text.toList = true := by
    decide +kernel
  rintro source offset ⟨n, hn, rfl⟩
  have hmem := Node.mem_preorder.mpr hn
  unfold idleReader at hmem
  split at hmem
  · rename_i hsource
    subst hsource
    exact hfiles idleFile (by simp) n hmem
  · split at hmem
    · rename_i hsource
      subst hsource
      exact hfiles readonlyIdleFile (by simp) n hmem
    · rw [Node.preorder_eq] at hmem
      have hstart : n.span.start = 0 := by rw [List.mem_singleton.mp hmem]; rfl
      rw [hstart, isBoundary]

theorem findings_idleFile : ∀ path ∈ ["./A.cs", "./B.cs"],
    (idleReader.report (Settings.options {} false) path idleFile.text).findings.length = 1 := by
  decide +kernel

/-- A byte that is no text. -/
def strayByte : ByteArray := ⟨#[0xff]⟩

theorem read_strayByte {d : Directory} {path : String} {place : List String}
    (hplace : d.locate path = .ok place) (hcontent : d.content? place = some strayByte) :
    d.read path = .error .notText := by
  have hnone : String.fromUTF8? strayByte = none := by decide +kernel
  rw [Directory.read_of_locate hplace hcontent, hnone]
  rfl

/-- `A.cs` is fixed as it is reported, and then the run ends at `B.cs`. -/
theorem the_file_before_an_unreadable_one_is_fixed :
    let d := pairOf idleFile.text.toUTF8 strayByte
    let run := d.fix idleReader {} false "." .never
    d.sources? [] "." = some ["./A.cs", "./B.cs"] ∧ d.Separates ["./A.cs", "./B.cs"] ∧
      (∃ results, (d.analyze idleReader {} false ".").result? .never = some (.ok results) ∧
        run.Follows d (results.files.take 1)) ∧
      run.fixed = [("./A.cs", 1)] := by
  intro d run
  have hpaths := sources?_pairOf idleFile.text.toUTF8 strayByte
  have hdistinct := separates_pairOf idleFile.text.toUTF8 strayByte
  obtain ⟨-, hfirst, hsecond⟩ := locate_pairOf idleFile.text.toUTF8 strayByte
  have hreadFirst : d.read "./A.cs" = .ok idleFile.text :=
    Directory.read_eq_ok_iff.mpr ⟨["A.cs"], hfirst, rfl⟩
  have hreadSecond : d.read "./B.cs" = .error .notText := read_strayByte hsecond rfl
  have hreached : (["./A.cs", "./B.cs"].takeWhile d.isReadable).length = 1 := by
    simp [Directory.isReadable, hreadFirst, hreadSecond, Except.isOk, Except.toBool]
  obtain ⟨results, hresults, hfollows, -⟩ :=
    fix_follows_analyze_up_to_the_first_failure placesNodes_idleReader Directory.sources? d {} "."
      hpaths hdistinct false
  rw [hreached] at hfollows
  refine ⟨hpaths, hdistinct, ⟨results, hresults, hfollows⟩, ?_⟩
  have hcount := findings_idleFile "./A.cs" (by decide)
  have hfile : d.isFile ["A.cs"] = true := rfl
  have hrest : ∀ content, (d.put ["A.cs"] content).read "./B.cs" = .error .notText := by
    intro content
    rw [Directory.read_put_of_ne hfile content (by rw [hsecond]; simp)]
    exact hreadSecond
  obtain ⟨text, hfix, -⟩ := FileReport.fix_addFound (placesNodes_idleReader idleFile.text)
    (Settings.options {} false) "./A.cs"
  have hrun : run = Directory.fixFiles idleReader (Settings.options {} false) false
      ["./A.cs", "./B.cs"] d .never := by
    unfold run Directory.fix
    rw [show d.sources? (Settings.ignorePatterns {}) "." = _ from hpaths]
  rw [hrun, Directory.fixFiles_of_findings _ hreadFirst hfix hfirst hfile
    (List.ne_nil_of_length_pos (by rw [hcount]; decide)), Directory.fixFiles_of_error _ (hrest _),
    hcount]

/-- The analysis finds something in `B.cs`, but the run ends at `A.cs` and leaves it as it is. -/
theorem an_unreadable_file_keeps_the_next_from_being_fixed :
    let d := pairOf strayByte idleFile.text.toUTF8
    let run := d.fix idleReader {} false "." .never
    (∃ results, (d.analyze idleReader {} false ".").result? .never = some (.ok results) ∧
      ∃ r ∈ results.files, r.path = "./B.cs" ∧ r.findings ≠ []) ∧
      run.fixed = [] ∧ run.directory.content? ["B.cs"] = d.content? ["B.cs"] := by
  intro d run
  have hpaths : d.sources? (Settings.ignorePatterns {}) "." = some ["./A.cs", "./B.cs"] :=
    sources?_pairOf strayByte idleFile.text.toUTF8
  obtain ⟨-, hfirst, hsecond⟩ := locate_pairOf strayByte idleFile.text.toUTF8
  have hreadFirst : d.read "./A.cs" = .error .notText := read_strayByte hfirst rfl
  have hreadSecond : d.read "./B.cs" = .ok idleFile.text :=
    Directory.read_eq_ok_iff.mpr ⟨["B.cs"], hsecond, rfl⟩
  have hrun : run = { directory := d, failure := some (.access "./A.cs" .notText) } := by
    unfold run Directory.fix
    rw [hpaths]
    exact Directory.fixFiles_of_error _ hreadFirst
  refine ⟨?_, by rw [hrun], by rw [hrun]⟩
  have hanalyze := d.yields_analyze idleReader {} false hpaths
  have hmem : idleReader.report (Settings.options {} false) "./B.cs" idleFile.text ∈
      d.reports idleReader (Settings.options {} false) ["./A.cs", "./B.cs"] :=
    List.mem_filterMap.mpr ⟨"./B.cs", by simp, by rw [Directory.outcome_of_read hreadSecond]; rfl⟩
  have hcount := findings_idleFile "./B.cs" (by decide)
  refine ⟨_, hanalyze.result?_never, _, ?_, TreeReader.path_report _ _ _ _,
    List.ne_nil_of_length_pos (by rw [hcount]; decide)⟩
  rw [Directory.files_collect]
  exact hmem

end ReadonlyLint
