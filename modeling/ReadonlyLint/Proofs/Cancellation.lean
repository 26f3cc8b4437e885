import Mathlib.Algebra.Ring.Nat
import ReadonlyLint.Proofs.FixedProjects

/-!
Cancellation is all or nothing. The files of a project may be worked on in any order and by turns;
what matters of such a run is only what each file hears when it asks (`Directory.analyzeApart`). If
no file is told to stop, the results are those of a run that nothing stops, and else there are none.
-/
namespace ReadonlyLint

/-! ## Totals -/

theorem Summary.foldl_addFinding (findings : List Finding) (s : Summary) :
    findings.foldl addFinding s =
      { s with
        memberFindings := s.memberFindings + findings.countP (·.rule = .readonlyMember)
        structFindings := s.structFindings + findings.countP (·.rule = .readonlyStruct) } := by
  induction findings generalizing s with
  | nil => rfl
  | cons f findings ih =>
    rw [List.foldl_cons, ih, addFinding]
    cases hrule : f.rule with
    | readonlyMember => simp [hrule, Nat.add_assoc, Nat.add_comm 1]
    | readonlyStruct => simp [hrule, Nat.add_assoc, Nat.add_comm 1]

/-- The totals are the sums over the reports. -/
theorem Summary.ofFiles_eq (files : List FileReport) (failures : List FileFailure) :
    Summary.ofFiles files failures =
      { filesAnalyzed := files.length
        filesFailed := failures.length
        structs := (files.map (·.structs)).sum
        members := (files.map (·.members)).sum
        memberFindings := (files.flatMap (·.findings)).countP (·.rule = .readonlyMember)
        structFindings := (files.flatMap (·.findings)).countP (·.rule = .readonlyStruct) } := by
  have hfold : ∀ (l : List FileReport) (s : Summary), l.foldl addFile s =
      { s with
        structs := s.structs + (l.map (·.structs)).sum
        members := s.members + (l.map (·.members)).sum
        memberFindings :=
          s.memberFindings + (l.flatMap (·.findings)).countP (·.rule = .readonlyMember)
        structFindings :=
          s.structFindings + (l.flatMap (·.findings)).countP (·.rule = .readonlyStruct) } := by
    intro l
    induction l with
    | nil => exact fun _ => rfl
    | cons file l ih =>
      intro s
      rw [List.foldl_cons, ih, addFile, foldl_addFinding]
      simp [List.countP_append, Nat.add_assoc]
  unfold Summary.ofFiles
  rw [hfold]
  simp

/-! ## Files that are worked on apart -/

/-- All of a list or nothing: one element that has no result leaves none at all. -/
theorem mapM_eq_ite {α β : Type} {f : α → Option β} {isStopped : α → Bool} {result : α → β}
    (h : ∀ a, f a = if isStopped a then none else some (result a)) (l : List α) :
    l.mapM f = if l.any isStopped then none else some (l.map result) := by
  induction l with
  | nil => rfl
  | cons a l ih =>
    rw [List.mapM_cons, h a, ih, List.any_cons]
    cases isStopped a with
    | true => rfl
    | false => cases l.any isStopped <;> rfl

theorem Cancellable.result?_map {α β : Type} (run : Cancellable α) (f : α → β) (s : Signal) :
    (run >>= fun a => pure (f a)).result? s = (run.result? s).map f := by
  change ((run s).bind fun q => some (f q.1, q.2)).map (·.1) = ((run s).map (·.1)).map f
  cases run s <;> rfl

/-- Runs one after the other under one signal: each hears what is left of it when its time comes. -/
theorem Cancellable.exists_heard_of_mapM {α β : Type} (run : α → Cancellable β) (l : List α)
    (s : Signal) :
    ∃ heard : List (α × Signal), heard.map (·.1) = l ∧
      (l.mapM run).result? s = heard.mapM fun a => (run a.1).result? a.2 := by
  induction l generalizing s with
  | nil => exact ⟨[], rfl, rfl⟩
  | cons a l ih =>
    have hcons : ((a :: l).mapM run).result? s =
        ((run a s).bind fun q => ((l.mapM run q.2).bind fun r => some (q.1 :: r.1, r.2))).map
          (·.1) := by
      rw [List.mapM_cons]
      rfl
    rcases hfirst : run a s with _ | ⟨b, rest⟩
    · -- what the later ones would have heard does not matter
      have hnone : (run a).result? s = none := by rw [result?, hfirst]; rfl
      refine ⟨(a, s) :: l.map (·, s), by simp [Function.comp_def], ?_⟩
      rw [hcons, hfirst, List.mapM_cons, hnone]
      rfl
    · obtain ⟨heard, rfl, hheard⟩ := ih rest
      have hsome : (run a).result? s = some b := by rw [result?, hfirst]; rfl
      refine ⟨(a, s) :: heard, rfl, ?_⟩
      rw [hcons, hfirst, List.mapM_cons, hsome, ← hheard, result?]
      dsimp only [Option.bind_some, Option.bind_eq_bind]
      cases (heard.map (·.1)).mapM run rest <;> rfl

namespace Directory

variable (d : Directory) (readTree : TreeReader) (options : AnalysisOptions) (root : String)

/-- The analysis of files of which each asks on its own, given with what it hears. In whatever order
the files are worked on, and however the work on one is broken off for that on another, each of them
hears some answers. -/
def analyzeApart (heard : List (String × Signal)) : Option Results :=
  (heard.mapM fun file =>
    ((d.analyzeFile readTree options file.1).result? file.2).map (file.1, ·)).map (collect root)

/-- Whether one of the files is told to stop at one of its questions. -/
def isStopped (heard : List (String × Signal)) : Bool :=
  heard.any fun file => file.2.stops (d.questions readTree file.1)

/-- The results when nothing stops the run. -/
def results (paths : List String) : Results :=
  collect root (paths.map fun path => (path, d.outcome readTree options path))

theorem analyzeApart_eq (heard : List (String × Signal)) :
    d.analyzeApart readTree options root heard =
      if d.isStopped readTree heard then none
      else some (d.results readTree options root (heard.map (·.1))) := by
  have hfile : ∀ file : String × Signal,
      ((d.analyzeFile readTree options file.1).result? file.2).map (file.1, ·) =
        if file.2.stops (d.questions readTree file.1) then none
        else some (file.1, d.outcome readTree options file.1) := by
    intro file
    rw [(d.asks_analyzeFile readTree options file.1).result?]
    split <;> rfl
  unfold analyzeApart isStopped results
  rw [mapM_eq_ite hfile, List.map_map]
  split <;> rfl

/-- One file after the other under one signal is a run of this kind. -/
theorem exists_heard_of_analyzeFiles (paths : List String) (s : Signal) :
    ∃ heard : List (String × Signal), heard.map (·.1) = paths ∧
      (d.analyzeFiles readTree options root paths).result? s =
        d.analyzeApart readTree options root heard := by
  obtain ⟨heard, hpaths, hheard⟩ := Cancellable.exists_heard_of_mapM
    (fun path => do return (path, ← d.analyzeFile readTree options path)) paths s
  refine ⟨heard, hpaths, ?_⟩
  have hfile : ∀ file : String × Signal,
      Cancellable.result? (do return (file.1, ← d.analyzeFile readTree options file.1)) file.2 =
        ((d.analyzeFile readTree options file.1).result? file.2).map (file.1, ·) := fun file =>
    Cancellable.result?_map (d.analyzeFile readTree options file.1) (file.1, ·) file.2
  have hrun : (d.analyzeFiles readTree options root paths).result? s = _ :=
    Cancellable.result?_map _ (collect root) s
  rw [hrun, hheard]
  simp only [hfile, analyzeApart]

theorem map_path_files_results (paths : List String) :
    (d.results readTree options root paths).files.map (·.path) = paths.filter d.isReadable := by
  rw [results, files_collect, reports, List.map_filterMap, ← List.filterMap_eq_filter]
  congr 1
  funext path
  unfold outcome isReadable
  rcases hread : d.read path with cause | source
  · simp [Option.guard, hread, Except.toOption, Except.isOk, Except.toBool]
  · simp [Option.guard, hread, Except.toOption, Except.isOk, Except.toBool,
      TreeReader.path_report]

theorem map_path_failures_results (paths : List String) :
    (d.results readTree options root paths).failures.map (·.path) =
      paths.filter (!d.isReadable ·) := by
  rw [results, failures_collect, List.map_filterMap, ← List.filterMap_eq_filter]
  congr 1
  funext path
  unfold failure? isReadable
  rcases hread : d.read path with cause | source
  · simp [Option.guard, hread, Except.isOk, Except.toBool]
  · simp [Option.guard, hread, Except.isOk, Except.toBool]

end Directory

/-! ## The law -/

/-- Cancellation is all or nothing. Files of which each hears its own answers are all analyzed, as
when nothing stops the run, unless one of the questions is answered with a stop; then there are no
results. One file after the other under one signal is a run of this kind. The results hold every
file once, in the order of the list, as a report or as a failure, and their totals are the sums over
the reports. A project whose sources cannot be listed fails before anything is asked. Under a signal
that asks to stop from the start, a single source has no report just when it has a struct. -/
theorem cancellation_is_all_or_nothing (d : Directory) (readTree : TreeReader)
    (options : AnalysisOptions) (root : String) (heard : List (String × Signal)) :
    let paths := heard.map (·.1)
    let run := d.analyzeFiles readTree options root paths
    let results := d.results readTree options root paths
    run.result? .never = some results ∧
      d.analyzeApart readTree options root heard =
        (if d.isStopped readTree heard then none else some results) ∧
      (∀ s, (run.result? s = none ∨ run.result? s = some results) ∧
        ∃ apart : List (String × Signal), apart.map (·.1) = paths ∧
          run.result? s = d.analyzeApart readTree options root apart) ∧
      (∀ (walk : Walker) settings explain s,
        (d.analyze readTree settings explain root walk).result? s =
        match walk d settings.ignorePatterns root with
        | none => some (.error (.noRoot root))
        | some paths =>
          ((d.analyzeFiles readTree (settings.options explain) root paths).result? s).map .ok) ∧
      results.files.map (·.path) = paths.filter d.isReadable ∧
      results.failures.map (·.path) = paths.filter (!d.isReadable ·) ∧
      results.summary =
        { filesAnalyzed := results.files.length
          filesFailed := results.failures.length
          structs := (results.files.map (·.structs)).sum
          members := (results.files.map (·.members)).sum
          memberFindings := results.findings.countP (·.rule = .readonlyMember)
          structFindings := results.findings.countP (·.rule = .readonlyStruct) } ∧
      results.findingCount = results.findings.length ∧
      ∀ path tree, (FileReport.ofTree path tree options).result? .always = none ↔
        StructDecl.ofTree tree ≠ [] := by
  intro paths run results
  have hyields := d.yields_analyzeFiles readTree options root paths
  refine ⟨hyields.result?_never, d.analyzeApart_eq readTree options root heard, fun s => ⟨?_, ?_⟩,
    ?_, d.map_path_files_results readTree options root paths,
    d.map_path_failures_results readTree options root paths, Summary.ofFiles_eq _ _,
    Directory.findingCount_collect root _, ?_⟩
  · rcases hresult : run.result? s with _ | found
    · exact .inl rfl
    · exact .inr (congrArg some (hyields.eq_of_result? hresult))
  · exact d.exists_heard_of_analyzeFiles readTree options root paths s
  · intro walk settings explain s
    unfold Directory.analyze
    rcases walk d settings.ignorePatterns root with _ | sources
    · rfl
    · exact Cancellable.result?_map _ Except.ok s
  · intro path tree
    have hasks := FileReport.asks_ofTree path tree options
    rw [hasks.result?]
    rcases StructDecl.ofTree tree with _ | ⟨first, others⟩
    · simp [FileReport.questions, Signal.stops_zero]
    · have hstop : Signal.always.stops (FileReport.questions (first :: others)) = true := by
        rw [Signal.stops_always, FileReport.questions, List.foldr_cons]
        omega
      simp [hstop]

end ReadonlyLint
