import ReadonlyLint.Proofs.WalkedFiles

/-!
Dry runs. A dry run of fixes writes nothing and says what the run that writes will say. The two go
through the same files, and as long as no two of the paths lead to the same file, a file is read as
before until the run comes to it. The run that writes only inserts `readonly `: when the inserted
texts are taken out again, each file is what it was. A file that is listed a second time, under a link
to it, is fixed when the run that writes comes back to it, but not for the dry run, which counts it
twice.
-/
namespace ReadonlyLint

/-! ## Taking insertions back -/

/-- Takes a text out at a byte offset; none if it does not stand there. -/
def removeAt (removed : List Char) : Nat → List Char → Option (List Char)
  | 0, cs => if removed.isPrefixOf cs then some (cs.drop removed.length) else none
  | _ + 1, [] => none
  | n + 1, c :: cs => (removeAt removed (n + 1 - c.utf8Size) cs).map (c :: ·)

theorem removeAt_insertAt {n : Nat} {cs : List Char} (h : isBoundary n cs) (text : List Char) :
    removeAt text n (insertAt text n cs) = some cs := by
  induction cs generalizing n with
  | nil =>
    cases n with
    | zero => simp [insertAt, removeAt]
    | succ n => simp [isBoundary] at h
  | cons c cs ih =>
    cases n with
    | zero =>
      have hprefix : text.isPrefixOf (text ++ c :: cs) = true :=
        List.isPrefixOf_iff_prefix.mpr (List.prefix_append text (c :: cs))
      rw [insertAt, removeAt, if_pos hprefix, List.drop_left]
    | succ n =>
      rw [isBoundary, Bool.and_eq_true] at h
      rw [insertAt, removeAt, ih h.2, Option.map_some]

/-- What is put in later leaves the places before it. -/
theorem isBoundary_insertAt {m n : Nat} {cs : List Char} (h : isBoundary m cs) (hle : m ≤ n)
    (text : List Char) : isBoundary m (insertAt text n cs) := by
  induction cs generalizing m n with
  | nil =>
    cases m with
    | zero => rw [isBoundary]
    | succ m => simp [isBoundary] at h
  | cons c cs ih =>
    cases m with
    | zero => rw [isBoundary]
    | succ m =>
      cases n with
      | zero => omega
      | succ n =>
        rw [isBoundary, Bool.and_eq_true] at h
        rw [insertAt, isBoundary, Bool.and_eq_true]
        exact ⟨h.1, ih h.2 (by omega)⟩

namespace Edit

/-- Takes the texts of edits out of an output: the one that was put in last goes first. -/
def removeAll (output : String) (edits : List Edit) : Option String :=
  ((ordered edits).reverse.foldlM (fun cs e => removeAt e.text.toList e.offset cs)
    output.toList).map String.ofList

theorem foldlM_removeAt_foldl_insertInto {edits : List Edit} {cs : List Char}
    (hsorted : edits.Pairwise fun a b => b.offset ≤ a.offset)
    (hvalid : ∀ e ∈ edits, isBoundary e.offset cs) :
    edits.reverse.foldlM (fun cs e => removeAt e.text.toList e.offset cs)
      (edits.foldl insertInto cs) = some cs := by
  -- The induction is on the edits still to come; `cs` is what the earlier ones have made.
  induction edits generalizing cs with
  | nil => rfl
  | cons e edits ih =>
    obtain ⟨hfirst, hsorted⟩ := List.pairwise_cons.mp hsorted
    obtain ⟨hplace, hvalid⟩ := List.forall_mem_cons.mp hvalid
    have hlater := @ih (insertInto cs e) hsorted fun x hx =>
      isBoundary_insertAt (hvalid x hx) (hfirst x hx) e.text.toList
    have hlast : removeAt e.text.toList e.offset (insertInto cs e) = some cs :=
      removeAt_insertAt hplace e.text.toList
    rw [List.foldl_cons, List.reverse_cons, List.foldlM_append, hlater]
    simp [hlast]

/-- Edits that could be applied can be taken back. -/
theorem removeAll_of_applyAll {source text : String} {edits : List Edit}
    (h : applyAll source edits = .ok text) : removeAll text edits = some source := by
  rcases applyAll_cases source edits with ⟨hvalid, hok⟩ | ⟨o, -, herror⟩
  · rw [hok] at h
    cases h
    unfold removeAll
    rw [String.toList_ofList, foldlM_removeAt_foldl_insertInto
      ((pairwise_ordered edits).imp offset_le_of_precedes)
      (fun e he => hvalid e (mem_ordered.mp he)), Option.map_some, String.ofList_toList]
  · rw [herror] at h
    cases h

/-- The edits insert `readonly ` only and turn the source into the text; taken out of it again, they
leave the source. -/
structure InsertReadonly (edits : List Edit) (source text : String) : Prop where
  texts : ∀ e ∈ edits, e.text = Suggestion.readonlyText
  applied : applyAll source edits = .ok text
  removed : removeAll text edits = some source

end Edit

/-! ## One file -/

namespace Directory

section File

variable {d : Directory} {readTree : TreeReader} {options : AnalysisOptions} {path : String}
  {signal : Signal}

/-- A fix depends on what the file is read as, and on nothing else in the directory. -/
theorem fixFile_congr {d' : Directory} (h : d'.read path = d.read path) :
    d'.fixFile readTree options path signal = d.fixFile readTree options path signal := by
  unfold fixFile
  rw [h]

/-- A file that is fixed is there, and its fixes insert `readonly `. -/
theorem exists_of_fixFile {text : String} {count : Nat} {rest : Signal}
    (h : d.fixFile readTree options path signal = .ok ((text, count), rest)) :
    ∃ place source edits, d.locate path = .ok place ∧ d.content? place = some source.toUTF8 ∧
      edits.length = count ∧ Edit.InsertReadonly edits source text := by
  unfold fixFile at h
  split at h
  · cases h
  · rename_i source hread
    obtain ⟨place, hplace, hsource⟩ := read_eq_ok_iff.mp hread
    split at h
    · cases h
    · rename_i report _ hreport
      split at h
      · cases h
      · rename_i hfix
        cases h
        have hreport : report = _ :=
          (FileReport.yields_ofTree path (readTree source) options).only hreport
        refine ⟨place, source, report.edits, hplace, hsource, List.length_map .., ?_, hfix,
          Edit.removeAll_of_applyAll hfix⟩
        rw [hreport]
        exact fun e he => (FileReport.startsAt_of_mem_edits he).2

/-- The text of a file that is there can be saved. -/
theorem save_of_content? {place : List String} {content : ByteArray}
    (hplace : d.locate path = .ok place) (hcontent : d.content? place = some content)
    (text : String) : d.save false path text = .ok (d.put place text.toUTF8) := by
  rw [save, if_neg (by decide), write_of_locate hplace (isFile_of_content? hcontent)]
  rfl

end File

end Directory

/-! ## Runs that only insert -/

/-- What a run of fixes may do to a directory: each file that it counts gets as many insertions of
`readonly ` as the count says, and every other file is as before. -/
structure FixRun.Inserts (run : FixRun) (d : Directory) : Prop where
  samePlaces : d.SamePlaces run.directory
  rewritten : ∀ file ∈ run.fixed, ∃ place source text edits,
    d.locate file.1 = .ok place ∧ d.content? place = some source.toUTF8 ∧
    run.directory.content? place = some text.toUTF8 ∧ text ≠ source ∧
    edits.length = file.2 ∧ Edit.InsertReadonly edits source text
  untouched : ∀ place, (∀ file ∈ run.fixed, d.locate file.1 ≠ .ok place) →
    run.directory.content? place = d.content? place

namespace FixRun

theorem inserts_nil (d : Directory) (failure : Option Failure) :
    FixRun.Inserts { directory := d, failure } d :=
  ⟨.refl d, by simp, fun _ _ => rfl⟩

/-- A file is rewritten first, and what follows does not come back to it. -/
theorem Inserts.rewrite {run : FixRun} {d : Directory} {path : String} {place : List String}
    {source text : String} {edits : List Edit} (hplace : d.locate path = .ok place)
    (hsource : d.content? place = some source.toUTF8) (hsome : edits.length ≠ 0)
    (hedits : Edit.InsertReadonly edits source text)
    (hothers : ∀ file ∈ run.fixed, d.locate file.1 ≠ .ok place)
    (h : run.Inserts (d.put place text.toUTF8)) :
    { run with fixed := (path, edits.length) :: run.fixed }.Inserts d := by
  have hfile := Directory.isFile_of_content? hsource
  have hput := Directory.samePlaces_put hfile text.toUTF8
  have hcontent := Directory.content?_put hfile text.toUTF8
  refine ⟨hput.trans h.samePlaces, ?_, ?_⟩
  · refine List.forall_mem_cons.mpr ⟨?_, ?_⟩
    · -- no later path leads to the place, so the text stays
      have hlast := h.untouched place fun file hmem => by
        rw [hput.locate]
        exact hothers file hmem
      rw [hcontent, if_pos rfl] at hlast
      have hne : text ≠ source := by
        obtain ⟨e, he⟩ := List.exists_mem_of_length_pos (Nat.pos_of_ne_zero hsome)
        refine Edit.ne_of_applyAll hedits.applied he ?_
        rw [hedits.texts e he]
        decide
      exact ⟨place, source, text, edits, hplace, hsource, hlast, hne, rfl, hedits⟩
    · -- a later file is elsewhere, so it was not yet touched when the rest of the run began
      intro file hmem
      obtain ⟨other, before, after, later, hother, hbefore, hrest⟩ := h.rewritten file hmem
      rw [hput.locate] at hother
      have hne : other ≠ place := fun heq => hothers file hmem (heq ▸ hother)
      rw [hcontent, if_neg hne] at hbefore
      exact ⟨other, before, after, later, hother, hbefore, hrest⟩
  · intro other hother
    obtain ⟨hfirst, hrest⟩ := List.forall_mem_cons.mp hother
    have hne : other ≠ place := fun heq => hfirst (heq ▸ hplace)
    have hlast := h.untouched other fun file hmem => by
      rw [hput.locate]
      exact hrest file hmem
    rw [hcontent, if_neg hne] at hlast
    exact hlast

end FixRun

/-! ## Runs -/

namespace Directory

section Runs

variable (readTree : TreeReader) (options : AnalysisOptions)

/-- A dry run writes nothing. -/
theorem directory_fixFiles_true (paths : List String) (d : Directory) (signal : Signal) :
    (fixFiles readTree options true paths d signal).directory = d := by
  induction paths generalizing signal with
  | nil => rfl
  | cons path paths ih =>
    rw [fixFiles]
    split
    · rfl
    · split
      · exact ih _
      · exact ih _

/-- The files that a run counts are among those that it is given, in their order. -/
theorem fixed_fixFiles_sublist (dryRun : Bool) (paths : List String) (d : Directory)
    (signal : Signal) :
    ((fixFiles readTree options dryRun paths d signal).fixed.map (·.1)).Sublist paths := by
  induction paths generalizing d signal with
  | nil => exact List.Sublist.slnil
  | cons path paths ih =>
    rw [fixFiles]
    split
    · exact List.nil_sublist _
    · split
      · exact (ih _ _).cons path
      · split
        · exact List.nil_sublist _
        · exact (ih _ _).cons_cons path

/-- The run that writes does to each file what its insertions say. -/
theorem inserts_fixFiles {paths : List String} {d : Directory} (hpaths : d.Separates paths)
    (signal : Signal) : (fixFiles readTree options false paths d signal).Inserts d := by
  induction paths generalizing d signal with
  | nil => exact FixRun.inserts_nil d none
  | cons path paths ih =>
    obtain ⟨hpath, htail⟩ := List.pairwise_cons.mp hpaths
    rw [fixFiles]
    split
    · exact FixRun.inserts_nil d _
    · rename_i text count rest hfix
      obtain ⟨place, source, edits, hplace, hsource, rfl, hedits⟩ := exists_of_fixFile hfix
      split
      · exact ih htail rest
      · rename_i hsome
        rw [save_of_content? hplace hsource]
        have hrun := ih (Separates.put htail (isFile_of_content? hsource) text.toUTF8) rest
        refine hrun.rewrite hplace hsource hsome hedits fun file hmem => ?_
        have hmem := (fixed_fixFiles_sublist readTree options false paths _ rest).subset
          (List.mem_map_of_mem hmem)
        exact hpath file.1 hmem place hplace

/-- A dry run and one that writes say the same, as long as the files still to come are read alike. -/
theorem fixFiles_true_agrees {paths : List String} {d d' : Directory}
    (hread : ∀ path ∈ paths, d'.read path = d.read path) (hpaths : d'.Separates paths)
    (signal : Signal) :
    (fixFiles readTree options true paths d signal).fixed =
        (fixFiles readTree options false paths d' signal).fixed ∧
      (fixFiles readTree options true paths d signal).failure =
        (fixFiles readTree options false paths d' signal).failure := by
  -- The dry run stays in `d`; `d'` is what the other run has made of it.
  induction paths generalizing d' signal with
  | nil => exact ⟨rfl, rfl⟩
  | cons path paths ih =>
    obtain ⟨hfirst, hothers⟩ := List.forall_mem_cons.mp hread
    obtain ⟨hpath, htail⟩ := List.pairwise_cons.mp hpaths
    rw [fixFiles, fixFiles, ← fixFile_congr hfirst]
    split
    · exact ⟨rfl, rfl⟩
    · rename_i text count rest hfix
      obtain ⟨place, source, edits, hplace, hsource, -, -⟩ := exists_of_fixFile hfix
      split
      · exact ih hothers htail rest
      · rw [save_of_content? hplace hsource]
        -- the other run has written, but not to a file that is still to come
        have hfile := isFile_of_content? hsource
        have hlater : ∀ other ∈ paths, (d'.put place text.toUTF8).read other = d.read other := by
          intro other hmem
          rw [read_put_of_ne hfile _ (hpath other hmem place hplace)]
          exact hothers other hmem
        obtain ⟨hfixed, hfailure⟩ := ih hlater (Separates.put htail hfile _) rest
        exact ⟨congrArg ((path, count) :: ·) hfixed, hfailure⟩

end Runs

end Directory

/-- However the files are listed, if no two of the paths lead to the same file, a dry run changes
nothing and predicts the run that writes: the same files are counted with the same numbers of fixes,
and if one fails, the other fails at the same file with the same error. The run that writes rewrites
just the listed files that it counts, and only by insertions of `readonly ` which, taken out again,
leave the original text. -/
theorem dry_run_predicts_the_run_that_writes (readTree : TreeReader) (walk : Walker)
    (d : Directory) (settings : Settings) (root : String) (signal : Signal)
    (hwalk : ∀ paths, walk d settings.ignorePatterns root = some paths → d.Separates paths) :
    let dry := d.fix readTree settings true root signal walk
    let real := d.fix readTree settings false root signal walk
    dry.directory = d ∧ dry.fixed = real.fixed ∧ dry.filesChanged = real.filesChanged ∧
      dry.fixesApplied = real.fixesApplied ∧ dry.failure = real.failure ∧ real.Inserts d ∧
      ∀ paths, walk d settings.ignorePatterns root = some paths →
        (real.fixed.map (·.1)).Sublist paths := by
  intro dry real
  rcases hpaths : walk d settings.ignorePatterns root with _ | paths
  · -- there is nothing to walk, and both say so
    have hnone : ∀ dryRun, d.fix readTree settings dryRun root signal walk =
        { directory := d, failure := some (.noRoot root) } := by
      intro dryRun
      unfold Directory.fix
      rw [hpaths]
    have hdry : dry = _ := hnone true
    have hreal : real = _ := hnone false
    rw [hdry, hreal]
    exact ⟨rfl, rfl, rfl, rfl, rfl, FixRun.inserts_nil d _, fun _ h => nomatch h⟩
  · have hseparates := hwalk paths hpaths
    have hsome : ∀ dryRun, d.fix readTree settings dryRun root signal walk =
        Directory.fixFiles readTree (settings.options false) dryRun paths d signal := by
      intro dryRun
      unfold Directory.fix
      rw [hpaths]
    have hdry : dry = _ := hsome true
    have hreal : real = _ := hsome false
    obtain ⟨hfixed, hfailure⟩ := Directory.fixFiles_true_agrees readTree (settings.options false)
      (fun _ _ => rfl) hseparates signal
    rw [← hdry, ← hreal] at hfixed hfailure
    refine ⟨?_, hfixed, congrArg List.length hfixed, ?_, hfailure, ?_, ?_⟩
    · rw [hdry]
      exact Directory.directory_fixFiles_true readTree _ paths d signal
    · unfold FixRun.fixesApplied
      rw [hfixed]
    · rw [hreal]
      exact Directory.inserts_fixFiles readTree _ hseparates signal
    · rintro _ ⟨⟩
      rw [hreal]
      exact Directory.fixed_fixFiles_sublist readTree _ false paths d signal

/-! ## Two paths -/

section Two

variable {d : Directory}

/-- The run of fixes over a directory in which `A.cs` and `B.cs` are found. -/
theorem fix_of_two (hpaths : d.sources? [] "." = some ["./A.cs", "./B.cs"]) (dryRun : Bool) :
    d.fix idleReader {} dryRun "." .never =
      Directory.fixFiles idleReader (Settings.options {} false) dryRun ["./A.cs", "./B.cs"] d
        .never := by
  unfold Directory.fix
  rw [show d.sources? (Settings.ignorePatterns {}) "." = _ from hpaths]

theorem fix_idleFile : ∀ path ∈ ["./A.cs", "./B.cs"],
    (idleReader.report (Settings.options {} false) path idleFile.text).fix idleFile.text =
      .ok readonlyIdleFile.text := by
  decide +kernel

/-- A dry run counts a file that has a finding and goes on. -/
theorem fixFiles_true_of_idle {path : String} (hpath : path ∈ ["./A.cs", "./B.cs"])
    (hread : d.read path = .ok idleFile.text) (paths : List String) :
    Directory.fixFiles idleReader (Settings.options {} false) true (path :: paths) d .never =
      let run := Directory.fixFiles idleReader (Settings.options {} false) true paths d .never
      { run with fixed := (path, 1) :: run.fixed } := by
  rw [Directory.fixFiles, Directory.fixFile_of_read hread (fix_idleFile path hpath)]
  simp only [findings_idleFile path hpath, Directory.save, if_true, if_neg Nat.one_ne_zero]

end Two

/-- `A.cs` has a finding and `B.cs` is no text: the dry run counts the one, fails at the other, and so
does the run that writes, which has fixed `A.cs` by then. -/
theorem dry_run_before_an_unreadable_file :
    let d := pairOf idleFile.text.toUTF8 strayByte
    let dry := d.fix idleReader {} true "." .never
    let real := d.fix idleReader {} false "." .never
    d.sources? [] "." = some ["./A.cs", "./B.cs"] ∧ d.Separates ["./A.cs", "./B.cs"] ∧
      dry.directory = d ∧ dry.fixed = [("./A.cs", 1)] ∧ real.fixed = [("./A.cs", 1)] ∧
      dry.failure = some (.access "./B.cs" .notText) ∧
      real.failure = some (.access "./B.cs" .notText) ∧ real.Inserts d := by
  intro d dry real
  have hd : d.WellFormed := by decide +kernel
  have hdistinct : (d.entries.map d.resolve).Nodup := by decide +kernel
  have hpaths := sources?_pairOf idleFile.text.toUTF8 strayByte
  obtain ⟨-, hfirst, hsecond⟩ := locate_pairOf idleFile.text.toUTF8 strayByte
  have hreadFirst : d.read "./A.cs" = .ok idleFile.text :=
    Directory.read_eq_ok_iff.mpr ⟨["A.cs"], hfirst, rfl⟩
  have hreadSecond : d.read "./B.cs" = .error .notText := read_strayByte hsecond rfl
  have hdry : dry = { directory := d, fixed := [("./A.cs", 1)],
                      failure := some (.access "./B.cs" .notText) } := by
    have hlast : d.fixFile idleReader (Settings.options {} false) "./B.cs" .never =
        .error (.access "./B.cs" .notText) := by
      unfold Directory.fixFile
      rw [hreadSecond]
    unfold dry
    rw [fix_of_two hpaths, fixFiles_true_of_idle (by decide) hreadFirst, Directory.fixFiles, hlast]
  obtain ⟨hdirectory, hfixed, -, -, hfailure, hinserts, -⟩ :=
    dry_run_predicts_the_run_that_writes idleReader Directory.sources? d {} "." .never
      fun _ h => hd.separates_sources hdistinct h
  have hdryFixed : dry.fixed = [("./A.cs", 1)] := by rw [hdry]
  have hdryFailure : dry.failure = some (.access "./B.cs" .notText) := by rw [hdry]
  exact ⟨hpaths, hd.separates_sources hdistinct hpaths, hdirectory, hdryFixed,
    hfixed.symm.trans hdryFixed, hdryFailure, hfailure.symm.trans hdryFailure, hinserts⟩

/-- A directory with the file `A.cs` and the link `B.cs` to it. -/
def linkOf (content : ByteArray) : Directory :=
  { files := [(["A.cs"], content)], links := [(["B.cs"], ["A.cs"])] }

theorem locate_linkOf (content : ByteArray) :
    (linkOf content).locate "." = .ok [] ∧ (linkOf content).locate "./A.cs" = .ok ["A.cs"] ∧
      (linkOf content).locate "./B.cs" = .ok ["A.cs"] := by
  unfold Directory.locate
  rw [Path.parts_eq, Path.parts_eq, Path.parts_eq]
  exact ⟨rfl, rfl, rfl⟩

theorem sources?_linkOf (content : ByteArray) :
    (linkOf content).sources? [] "." = some ["./A.cs", "./B.cs"] := by
  have hsorted : [["A.cs"], ["B.cs"]].Pairwise (Directory.precedes · ·) := by decide +kernel
  exact sources?_of_filesBelow (locate_linkOf content).1 rfl (List.mergeSort_of_pairwise hsorted)

/-- The walk finds `A.cs` and the link `B.cs` to it. The dry run counts two fixes in two files; the run
that writes has fixed the file when it comes to the link, and counts one fix in one file. -/
theorem a_link_is_counted_by_the_dry_run_only :
    let d := linkOf idleFile.text.toUTF8
    let dry := d.fix idleReader {} true "." .never
    let real := d.fix idleReader {} false "." .never
    d.sources? [] "." = some ["./A.cs", "./B.cs"] ∧ ["./A.cs", "./B.cs"].Nodup ∧
      dry.fixed = [("./A.cs", 1), ("./B.cs", 1)] ∧ dry.failure = none ∧
      dry.filesChanged = 2 ∧ dry.fixesApplied = 2 ∧
      real.fixed = [("./A.cs", 1)] ∧ real.failure = none ∧
      real.filesChanged = 1 ∧ real.fixesApplied = 1 := by
  intro d dry real
  have hpaths := sources?_linkOf idleFile.text.toUTF8
  obtain ⟨-, hfirst, hsecond⟩ := locate_linkOf idleFile.text.toUTF8
  have hreadFirst : d.read "./A.cs" = .ok idleFile.text :=
    Directory.read_eq_ok_iff.mpr ⟨["A.cs"], hfirst, rfl⟩
  have hreadSecond : d.read "./B.cs" = .ok idleFile.text :=
    Directory.read_eq_ok_iff.mpr ⟨["A.cs"], hsecond, rfl⟩
  have hdry : dry = { directory := d, fixed := [("./A.cs", 1), ("./B.cs", 1)] } := by
    unfold dry
    rw [fix_of_two hpaths, fixFiles_true_of_idle (by decide) hreadFirst,
      fixFiles_true_of_idle (by decide) hreadSecond]
    rfl
  have hreal : real = { directory := d.put ["A.cs"] readonlyIdleFile.text.toUTF8,
                        fixed := [("./A.cs", 1)] } := by
    have hfile : d.isFile ["A.cs"] = true := rfl
    have hcount := findings_idleFile "./A.cs" (by decide)
    -- the link leads to the file that was just written
    have hreadAgain : (d.put ["A.cs"] readonlyIdleFile.text.toUTF8).read "./B.cs" =
        .ok readonlyIdleFile.text := by
      refine Directory.read_eq_ok_iff.mpr ⟨["A.cs"], ?_, ?_⟩
      · rw [(Directory.samePlaces_put hfile _).locate]
        exact hsecond
      · rw [Directory.content?_put hfile, if_pos rfl]
    have hclean : (idleReader.report (Settings.options {} false) "./B.cs"
        readonlyIdleFile.text).findings = [] := List.eq_nil_of_length_eq_zero (by decide +kernel)
    have hsame : (idleReader.report (Settings.options {} false) "./B.cs"
        readonlyIdleFile.text).fix readonlyIdleFile.text = .ok readonlyIdleFile.text := by
      decide +kernel
    unfold real
    rw [fix_of_two hpaths, Directory.fixFiles_of_findings _ hreadFirst
      (fix_idleFile "./A.cs" (by decide)) hfirst hfile
      (List.ne_nil_of_length_pos (by rw [hcount]; decide)),
      Directory.fixFiles_of_clean _ hreadAgain hsame hclean, hcount]
    rfl
  rw [hdry, hreal]
  exact ⟨hpaths, by decide, rfl, rfl, rfl, rfl, rfl, rfl, rfl, rfl⟩

end ReadonlyLint
