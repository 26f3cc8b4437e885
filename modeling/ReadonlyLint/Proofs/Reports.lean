import ReadonlyLint.Proofs.Verdicts

/-!
What the report on a file holds. A signal decides whether a run gives its result, never which
(`Cancellable.Yields`), so there is one report to speak of: the structs of the file are added to it
in their order, each with the findings on it and, on request, with its explanation.
-/
namespace ReadonlyLint

/-! ## Runs with one result -/

namespace Cancellable

/-- The run gives the value when nothing stops it, and no signal makes it give another. -/
structure Yields {α : Type} (run : Cancellable α) (a : α) : Prop where
  never : run .never = some (a, .never)
  only : ∀ {s : Signal} {p : α × Signal}, run s = some p → p.1 = a

theorem yields_pure {α : Type} (a : α) : Yields (pure a) a where
  never := rfl
  only h := by
    cases h
    rfl

theorem Yields.bind {α β : Type} {run : Cancellable α} {next : α → Cancellable β} {a : α} {b : β}
    (h : Yields run a) (hnext : Yields (next a) b) : Yields (run >>= next) b where
  never := by
    change (run .never).bind (fun q => next q.1 q.2) = _
    rw [h.never]
    exact hnext.never
  only {s p} hp := by
    change (run s).bind (fun q => next q.1 q.2) = _ at hp
    obtain ⟨q, hq, hp⟩ := Option.bind_eq_some_iff.mp hp
    rw [h.only hq] at hp
    exact hnext.only hp

theorem Yields.mapM {α β : Type} {run : α → Cancellable β} {result : α → β}
    (h : ∀ a, Yields (run a) (result a)) (l : List α) : Yields (l.mapM run) (l.map result) := by
  induction l with
  | nil => exact yields_pure []
  | cons a l ih =>
    rw [List.mapM_cons, List.map_cons]
    exact (h a).bind (ih.bind (yields_pure _))

/-- The number of questions aside, a run that asks them has one result. -/
theorem Asks.yields {α : Type} {run : Cancellable α} {n : Nat} {a : α} (h : Asks run n a) :
    Yields run a where
  never := by
    rw [h, Signal.stops_never]
    rfl
  only {s p} hp := by
    rw [h] at hp
    split at hp
    · cases hp
    · cases hp
      rfl

theorem Yields.result?_never {α : Type} {run : Cancellable α} {a : α} (h : Yields run a) :
    run.result? .never = some a := by
  unfold result?
  rw [h.never]
  rfl

theorem Yields.eq_of_result? {α : Type} {run : Cancellable α} {a b : α} (h : Yields run a)
    {s : Signal} (hb : run.result? s = some b) : b = a := by
  obtain ⟨p, hp, rfl⟩ := Option.map_eq_some_iff.mp hb
  exact h.only hp

end Cancellable

namespace StructDecl

/-- All that a run finds out about a struct, if it is not stopped. -/
def analysis (d : StructDecl) : StructAnalysis :=
  { locals := d.analyzeLocally, graph := d.callGraph, resolution := d.verdicts }

/-- How often the analysis of a struct asks the signal. -/
def questions (d : StructDecl) : Nat :=
  1 + d.callGraph.questions (d.analyzeLocally.map (·.mutates))

theorem asks_analyze (d : StructDecl) : Cancellable.Asks d.analyze d.questions d.analysis :=
  Cancellable.asks_check.bind
    ((d.callGraph.asks_resolve _).map (StructAnalysis.mk d.analyzeLocally d.callGraph))

theorem yields_analyze (d : StructDecl) : Cancellable.Yields d.analyze d.analysis :=
  d.asks_analyze.yields

/-- What is suggested for a struct under the given options. -/
def found (d : StructDecl) (options : AnalysisOptions) : List Suggestion :=
  d.suggestions d.verdicts options.wanted

end StructDecl

/-! ## The report on a file -/

namespace FileReport

/-- Adds what was found out about each of the structs. -/
def addFound (options : AnalysisOptions) (report : FileReport) (ds : List StructDecl) :
    FileReport :=
  ds.foldl (fun report d => report.add options d d.analysis) report

/-- How often a report on structs asks the signal: before each of them, and in its analysis. -/
def questions (ds : List StructDecl) : Nat := ds.foldr (fun d n => 1 + (d.questions + n)) 0

theorem asks_addAll (options : AnalysisOptions) (report : FileReport) (ds : List StructDecl) :
    Cancellable.Asks (addAll options report ds) (questions ds) (report.addFound options ds) := by
  induction ds generalizing report with
  | nil => exact Cancellable.asks_pure report
  | cons d ds ih => exact Cancellable.asks_check.bind (d.asks_analyze.bind (ih _))

theorem asks_ofTree (path : String) (root : Node) (options : AnalysisOptions) :
    Cancellable.Asks (ofTree path root options) (questions (StructDecl.ofTree root))
      (addFound options { path } (StructDecl.ofTree root)) :=
  asks_addAll options _ _

theorem yields_ofTree (path : String) (root : Node) (options : AnalysisOptions) :
    Cancellable.Yields (ofTree path root options)
      (addFound options { path } (StructDecl.ofTree root)) :=
  (asks_ofTree path root options).yields

theorem path_addFound (options : AnalysisOptions) (report : FileReport) (ds : List StructDecl) :
    (report.addFound options ds).path = report.path := by
  induction ds generalizing report with
  | nil => rfl
  | cons d ds ih => exact ih (report.add options d d.analysis)

theorem findings_addFound (options : AnalysisOptions) (report : FileReport)
    (ds : List StructDecl) :
    (report.addFound options ds).findings =
      report.findings ++
        ds.flatMap fun d => (d.found options).map (·.toFinding report.path d.name options) := by
  induction ds generalizing report with
  | nil => simp [addFound]
  | cons d ds ih =>
    have hrest := ih (report.add options d d.analysis)
    rw [List.flatMap_cons, ← List.append_assoc]
    exact hrest

theorem explanations_addFound {options : AnalysisOptions} (hexplain : options.explain = true)
    (report : FileReport) (ds : List StructDecl) :
    (report.addFound options ds).explanations =
      report.explanations ++ ds.map fun d => d.explain d.analysis (d.found options) := by
  induction ds generalizing report with
  | nil => simp [addFound]
  | cons d ds ih =>
    have hrest := ih (report.add options d d.analysis)
    have hadd : (report.add options d d.analysis).explanations =
        report.explanations ++ [d.explain d.analysis (d.found options)] :=
      congrArg (report.explanations ++ ·) (if_pos hexplain)
    rw [hadd, List.append_assoc] at hrest
    exact hrest

end FileReport

end ReadonlyLint
