import ReadonlyLint.Report.Results

/-!
Results as text for a terminal, with or without colours. A report is a list of lines, and a line a
list of pieces of text, some of them with a style; only the last step turns styles into escape
sequences, so that both forms have the same text.
-/
namespace ReadonlyLint

/-! ## Styled text -/

/-- A style, by the numbers of its escape sequence. -/
structure Style where
  codes : List Nat
  deriving DecidableEq, Inhabited

namespace Style

def bold : Style := ⟨[1]⟩
def dimmed : Style := ⟨[2]⟩
def red : Style := ⟨[31]⟩
def green : Style := ⟨[32]⟩
def yellow : Style := ⟨[33]⟩
def blue : Style := ⟨[34]⟩
def cyan : Style := ⟨[36]⟩
def boldBlue : Style := ⟨[1, 34]⟩
def boldRed : Style := ⟨[1, 31]⟩

/-- The escape character. -/
def escape : String := "\x1b"

/-- The sequence that starts a style. -/
def opening (s : Style) : String :=
  escape ++ "[" ++ String.intercalate ";" (s.codes.map toString) ++ "m"

/-- The sequence that ends every style. -/
def closing : String := escape ++ "[0m"

/-- The text with a style started again after each sequence in it that ends every style. -/
def resume (opening : List Char) : List Char → List Char
  | '\x1b' :: '[' :: '0' :: 'm' :: cs =>
    '\x1b' :: '[' :: '0' :: 'm' :: (opening ++ resume opening cs)
  | c :: cs => c :: resume opening cs
  | [] => []

/-- Text in a style, all through. -/
def paint (s : Style) (text : String) : String :=
  s.opening ++ String.ofList (resume s.opening.toList text.toList) ++ closing

end Style

/-- A piece of a line. -/
structure Piece where
  style : Option Style
  text : String
  deriving DecidableEq, Inhabited

namespace Piece

def plain (text : String) : Piece := { style := none, text }

def styled (style : Style) (text : String) : Piece := { style := some style, text }

def render (color : Bool) (p : Piece) : String :=
  match p.style with
  | some style => if color then style.paint p.text else p.text
  | none => p.text

end Piece

/-- A line of a report. -/
abbrev ReportLine := List Piece

/-- The text of lines, each with its end. -/
def renderLines (color : Bool) (lines : List ReportLine) : String :=
  String.join (lines.map fun line => String.join (line.map (·.render color)) ++ "\n")

namespace ReportLine

def empty : ReportLine := []

def ofText (text : String) : ReportLine := [.plain text]

/-- A heading after a sign. -/
def heading (sign title : String) : ReportLine := [.plain sign, .styled .bold title]

def thinRule : ReportLine := ofText ("".pushn '─' 43)

def rule : ReportLine := [.styled .blue ("".pushn '═' 43)]

end ReportLine

/-! ## The parts of a report -/

open ReportLine

namespace Results

def headerLines : List ReportLine :=
  [empty, rule, [.styled .boldBlue "           MUTMAP ANALYSIS REPORT"], rule, empty]

def summaryLines (r : Results) : List ReportLine :=
  let s := r.summary
  [heading "📊 " "Summary", thinRule, ofText s!"Files analyzed: {s.filesAnalyzed}"] ++
  (if s.filesFailed > 0 then
    [[.plain "Files failed: ", .styled .red (toString s.filesFailed)]]
  else []) ++
  [ofText s!"Structs: {s.structs}", ofText s!"Members: {s.members}",
   ofText s!"Readonly candidates: {s.memberFindings} members, {s.structFindings} structs", empty]

end Results

/-- The name of a severity in its style. A finding is never without severity. -/
def Severity.piece : Severity → Piece
  | .error => .styled .boldRed "error"
  | .warning => .styled .yellow "warning"
  | .suggestion | .none => .styled .cyan "suggestion"

def Finding.line (f : Finding) : ReportLine :=
  [.styled .dimmed (f.file ++ ":" ++ f.span.place), .plain " ", f.severity.piece,
   .plain ("[" ++ f.rule.code ++ "] " ++ f.message)]

def Verdict.piece : Verdict → Piece
  | .mutating => .styled .red "mutating"
  | .notMutating => .styled .green "not mutating"
  | .unknown => .styled .yellow "unknown"

def Evidence.line (e : Evidence) : ReportLine :=
  match e.span with
  | some span => ofText ("    - " ++ e.mutation.describe ++ " at " ++ span.place)
  | none => ofText ("    - " ++ e.mutation.describe)

def MemberExplanation.lines (m : MemberExplanation) : List ReportLine :=
  [[.plain ("  " ++ m.kind ++ " " ++ m.name ++ ": "), m.verdict.piece,
    .plain (if m.suggested then " (suggested)" else "")]] ++
  m.evidence.map (·.line) ++
  (if m.escalatedThrough.isEmpty then []
  else [ofText ("    - calls " ++ String.intercalate " -> " m.escalatedThrough)])

def StructExplanation.lines (e : StructExplanation) (path : String) : List ReportLine :=
  [[.styled .bold ("struct " ++ e.name ++ " (" ++ path ++ ":" ++ e.location.place ++ ")")]] ++
  (if e.suggested then [ofText "  whole struct can be readonly"] else []) ++
  e.members.flatMap (·.lines) ++ [empty]

def FileReport.explanationLines (f : FileReport) : List ReportLine :=
  f.explanations.flatMap (·.lines f.path)

namespace Results

def findingLines (r : Results) : List ReportLine :=
  if r.findingCount = 0 then []
  else [heading "🔎 " "Findings", thinRule] ++ r.findings.map (·.line) ++ [empty]

def explanationLines (r : Results) : List ReportLine :=
  if r.files.any (!·.explanations.isEmpty) then
    [heading "🧭 " "Explanations", thinRule] ++ r.files.flatMap (·.explanationLines)
  else []

def failureLines (r : Results) : List ReportLine :=
  if r.failures.isEmpty then []
  else
    [heading "⚠️  " "Skipped files", thinRule] ++
      r.failures.map (fun f => ofText (f.path ++ ": " ++ f.message)) ++ [empty]

def statusLine (r : Results) : ReportLine :=
  if r.hasErrors then [.styled .boldRed "✗ Findings with error severity"]
  else if r.findingCount = 0 then [.styled .green "✓ No readonly candidates found"]
  else [.styled .green s!"✓ {r.findingCount} readonly candidates"]

def lines (r : Results) : List ReportLine :=
  headerLines ++ r.summaryLines ++ r.findingLines ++ r.explanationLines ++ r.failureLines ++
    [r.statusLine]

/-- The results as text for a terminal. -/
def terminalText (r : Results) (color : Bool) : String := renderLines color r.lines

end Results

end ReadonlyLint
