import ReadonlyLint.Report.Terminal

/-!
Reports with and without colours have the same text. Colours are escape sequences around pieces of
text (`Style.paint`). Whoever deletes the sequences from the coloured text reads the plain text, piece
by piece (`Style.Reads`), as long as no text of the results has an escape character of its own.
-/
namespace ReadonlyLint

/-! ## Texts without the escape character -/

def EscapeFree (text : String) : Prop := '\x1b' ∉ text.toList

instance (text : String) : Decidable (EscapeFree text) := inferInstanceAs (Decidable (_ ∉ _))

@[simp] theorem escapeFree_append {a b : String} :
    EscapeFree (a ++ b) ↔ EscapeFree a ∧ EscapeFree b := by
  unfold EscapeFree
  rw [String.toList_append, List.mem_append, not_or]

theorem EscapeFree.append {a b : String} (ha : EscapeFree a) (hb : EscapeFree b) :
    EscapeFree (a ++ b) := escapeFree_append.mpr ⟨ha, hb⟩

theorem isDigit_of_mem_repr {n : Nat} {c : Char} (h : c ∈ n.repr.toList) : c.isDigit = true := by
  rw [Nat.toList_repr] at h
  exact Nat.isDigit_of_mem_toDigits (by decide) (by decide) h

@[simp] theorem escapeFree_repr (n : Nat) : EscapeFree n.repr := fun h =>
  absurd (isDigit_of_mem_repr h) (by decide)

theorem mem_toList_intercalate {sep : String} {texts : List String} {c : Char}
    (h : c ∈ (sep.intercalate texts).toList) : c ∈ sep.toList ∨ ∃ t ∈ texts, c ∈ t.toList := by
  induction texts with
  | nil => simp at h
  | cons t texts ih =>
    cases texts with
    | nil => exact Or.inr ⟨t, by simp, by simpa using h⟩
    | cons u texts =>
      rw [String.intercalate_cons_cons, String.toList_append, String.toList_append,
        List.mem_append, List.mem_append] at h
      rcases h with (h | h) | h
      · exact Or.inr ⟨t, by simp, h⟩
      · exact Or.inl h
      · rcases ih h with h | ⟨v, hv, h⟩
        · exact Or.inl h
        · exact Or.inr ⟨v, List.mem_cons_of_mem _ hv, h⟩

theorem escapeFree_intercalate {sep : String} {texts : List String} (hsep : EscapeFree sep)
    (h : ∀ t ∈ texts, EscapeFree t) : EscapeFree (sep.intercalate texts) := by
  intro hin
  rcases mem_toList_intercalate hin with hin | ⟨t, ht, hin⟩
  · exact hsep hin
  · exact h t ht hin

theorem escapeFree_pushn {text : String} (h : EscapeFree text) {c : Char} (hc : c ≠ '\x1b')
    (n : Nat) : EscapeFree (text.pushn c n) := by
  rw [String.pushn_eq_repeat_push]
  induction n with
  | zero => exact h
  | succ n ih =>
    unfold EscapeFree at ih ⊢
    rw [Nat.repeat, String.toList_push, List.mem_append, not_or, List.mem_singleton]
    exact ⟨ih, hc.symm⟩

@[simp] theorem Span.escapeFree_place (s : Span) : EscapeFree s.place := by
  simp +decide [Span.place]

/-! ## Escape sequences -/

namespace Style

/-- A digit, or the mark between two codes. -/
def isCode (c : Char) : Bool := c.isDigit || c == ';'

/-- What comes after the escape sequence at the start of a text, if there is one: the escape
character, a bracket, codes and `m`. -/
def afterSequence? : List Char → Option (List Char)
  | '\x1b' :: '[' :: cs =>
    match cs.dropWhile isCode with
    | 'm' :: rest => some rest
    | _ => none
  | _ => none

theorem length_lt_of_afterSequence? {cs rest : List Char} (h : afterSequence? cs = some rest) :
    rest.length < cs.length := by
  unfold afterSequence? at h
  split at h
  · rename_i tail
    have hle := (List.dropWhile_suffix isCode (l := tail)).length_le
    split at h
    · rename_i hdrop
      cases h
      rw [hdrop] at hle
      simp only [List.length_cons] at hle ⊢
      omega
    · cases h
  · cases h

/-- The text without its escape sequences. -/
def deleteSequences : List Char → List Char
  | [] => []
  | c :: cs =>
    match h : afterSequence? (c :: cs) with
    | some rest =>
      have := length_lt_of_afterSequence? h
      deleteSequences rest
    | none => c :: deleteSequences cs
termination_by cs => cs.length
decreasing_by
  · exact this
  · exact Nat.lt_succ_self _

theorem deleteSequences_nil : deleteSequences [] = [] := by
  rw [deleteSequences]

theorem deleteSequences_cons_of_ne {c : Char} (hc : c ≠ '\x1b') (cs : List Char) :
    deleteSequences (c :: cs) = c :: deleteSequences cs := by
  have hnone : afterSequence? (c :: cs) = none := by
    unfold afterSequence?
    split
    · rename_i heq
      exact absurd (List.cons.inj heq).1 hc
    · rfl
  rw [deleteSequences]
  split
  · rename_i h
    rw [hnone] at h
    cases h
  · rfl

theorem deleteSequences_sequence {codes : List Char} (hcodes : ∀ c ∈ codes, isCode c = true)
    (rest : List Char) :
    deleteSequences ('\x1b' :: '[' :: (codes ++ 'm' :: rest)) = deleteSequences rest := by
  have hsome : afterSequence? ('\x1b' :: '[' :: (codes ++ 'm' :: rest)) = some rest := by
    have hdrop : (codes ++ 'm' :: rest).dropWhile isCode = 'm' :: rest := by
      rw [List.dropWhile_append_of_pos hcodes]
      rfl
    simp only [afterSequence?, hdrop]
  rw [deleteSequences]
  split
  · rename_i h
    rw [hsome] at h
    cases h
    rfl
  · rename_i h
    rw [hsome] at h
    cases h

/-! ## Reading shown text -/

/-- Whatever comes after it, the text is what is left of the shown text without its sequences. -/
def Reads (shown text : List Char) : Prop :=
  ∀ rest, deleteSequences (shown ++ rest) = text ++ deleteSequences rest

theorem Reads.deleteSequences_eq {shown text : List Char} (h : Reads shown text) :
    deleteSequences shown = text := by
  have hend := h []
  rwa [List.append_nil, deleteSequences_nil, List.append_nil] at hend

theorem Reads.append {a b c d : List Char} (hab : Reads a b) (hcd : Reads c d) :
    Reads (a ++ c) (b ++ d) := by
  intro rest
  rw [List.append_assoc, hab, hcd, List.append_assoc]

theorem reads_flatMap {α : Type} {shown text : α → List Char} {l : List α}
    (h : ∀ x ∈ l, Reads (shown x) (text x)) : Reads (l.flatMap shown) (l.flatMap text) := by
  induction l with
  | nil => exact fun rest => rfl
  | cons x l ih =>
    rw [List.flatMap_cons, List.flatMap_cons]
    exact (h x List.mem_cons_self).append (ih fun y hy => h y (List.mem_cons_of_mem x hy))

/-- Text without the escape character is read as it is. -/
theorem reads_self {cs : List Char} (h : '\x1b' ∉ cs) : Reads cs cs := by
  intro rest
  induction cs with
  | nil => rfl
  | cons c cs ih =>
    rw [List.mem_cons, not_or] at h
    rw [List.cons_append, deleteSequences_cons_of_ne (Ne.symm h.1), ih h.2, List.cons_append]

/-- A sequence is not read. -/
theorem reads_sequence {codes : List Char} (hcodes : ∀ c ∈ codes, isCode c = true) :
    Reads ('\x1b' :: '[' :: (codes ++ ['m'])) [] := by
  intro rest
  have hassoc : '\x1b' :: '[' :: (codes ++ ['m']) ++ rest =
      '\x1b' :: '[' :: (codes ++ 'm' :: rest) := by simp
  rw [hassoc, deleteSequences_sequence hcodes, List.nil_append]

/-! ## Painted text -/

/-- The codes of a style, as its sequences have them. -/
def codeText (s : Style) : List Char := (String.intercalate ";" (s.codes.map toString)).toList

theorem isCode_of_mem_codeText {s : Style} {c : Char} (h : c ∈ s.codeText) : isCode c = true := by
  rcases mem_toList_intercalate h with h | ⟨t, ht, h⟩
  · have hmark : c = ';' := by simpa using h
    rw [hmark]
    rfl
  · obtain ⟨n, -, rfl⟩ := List.mem_map.mp ht
    rw [Nat.toString_eq_repr] at h
    simp [isCode, isDigit_of_mem_repr h]

theorem toList_opening (s : Style) :
    s.opening.toList = '\x1b' :: '[' :: (s.codeText ++ ['m']) := by
  simp [opening, escape, codeText]

theorem resume_of_not_mem (opening : List Char) {cs : List Char} (h : '\x1b' ∉ cs) :
    resume opening cs = cs := by
  induction cs with
  | nil => rfl
  | cons c cs ih =>
    rw [List.mem_cons, not_or] at h
    unfold resume
    split
    · rename_i heq
      exact absurd (List.cons.inj heq).1.symm h.1
    · rename_i heq
      cases heq
      rw [ih h.2]
    · rename_i heq
      cases heq

theorem toList_paint (s : Style) {text : String} (h : EscapeFree text) :
    (s.paint text).toList = s.opening.toList ++ text.toList ++ closing.toList := by
  rw [paint, String.toList_append, String.toList_append, String.toList_ofList,
    resume_of_not_mem _ h]

theorem reads_paint (s : Style) {text : String} (h : EscapeFree text) :
    Reads (s.paint text).toList text.toList := by
  have hopening : Reads s.opening.toList [] := by
    rw [toList_opening]
    exact reads_sequence fun c hc => isCode_of_mem_codeText hc
  have hzero : ∀ c ∈ ['0'], isCode c = true := List.forall_mem_singleton.mpr rfl
  have hclosing : Reads closing.toList [] := reads_sequence hzero
  rw [toList_paint s h]
  simpa using (hopening.append (reads_self h)).append hclosing

/-- Painted text has one sequence before it and one after it. -/
theorem count_paint (s : Style) {text : String} (h : EscapeFree text) :
    (s.paint text).toList.count '\x1b' = 2 := by
  have hcodes : s.codeText.count '\x1b' = 0 := by
    rw [List.count_eq_zero]
    intro hin
    exact absurd (isCode_of_mem_codeText hin) (by decide)
  have htext : text.toList.count '\x1b' = 0 := List.count_eq_zero.mpr h
  have hclosing : closing.toList.count '\x1b' = 1 := by decide
  rw [toList_paint s h, toList_opening, List.count_append, List.count_append, htext, hclosing]
  simp [hcodes]

end Style

/-! ## Lines -/

namespace ReportLine

/-- No piece of the line has an escape character. -/
def Clean (line : ReportLine) : Prop := ∀ p ∈ line, EscapeFree p.text

@[simp] theorem clean_nil : Clean [] := by
  simp [Clean]

@[simp] theorem clean_cons {p : Piece} {line : ReportLine} :
    Clean (p :: line) ↔ EscapeFree p.text ∧ line.Clean := by
  simp [Clean]

@[simp] theorem clean_ofText {text : String} : (ofText text).Clean ↔ EscapeFree text := by
  simp [ofText, Clean, Piece.plain]

theorem clean_thinRule : thinRule.Clean := by
  rw [thinRule, clean_ofText]
  exact escapeFree_pushn (by decide) (by decide) 43

/-- The two lines over a part of a report. -/
theorem clean_title {sign title : String} (hsign : EscapeFree sign) (htitle : EscapeFree title) :
    ∀ line ∈ [heading sign title, thinRule], line.Clean := by
  have hheading : (heading sign title).Clean := by
    rintro p hp
    simp only [heading, List.mem_cons, List.not_mem_nil, or_false] at hp
    rcases hp with rfl | rfl
    · exact hsign
    · exact htitle
  simp [hheading, clean_thinRule]

end ReportLine

@[simp] theorem Piece.text_plain (text : String) : (Piece.plain text).text = text := rfl

@[simp] theorem Piece.text_styled (style : Style) (text : String) :
    (Piece.styled style text).text = text := rfl

theorem Piece.render_false (p : Piece) : p.render false = p.text := by
  unfold render
  split <;> rfl

theorem Piece.reads_render {p : Piece} (h : EscapeFree p.text) :
    Style.Reads (p.render true).toList p.text.toList := by
  unfold render
  split
  · exact Style.reads_paint _ h
  · exact Style.reads_self h

theorem Piece.count_render {p : Piece} (h : EscapeFree p.text) :
    (p.render true).toList.count '\x1b' = if p.style.isSome then 2 else 0 := by
  unfold render
  split
  · rename_i style hstyle
    simp [hstyle, Style.count_paint style h]
  · rename_i hstyle
    simp [hstyle, List.count_eq_zero.mpr h]

theorem toList_renderLines (color : Bool) (lines : List ReportLine) :
    (renderLines color lines).toList =
      lines.flatMap fun line => (line.flatMap fun p => (p.render color).toList) ++ ['\n'] := by
  simp [renderLines, String.toList_join, List.flatMap_map]

/-- A line has the start and the end of a sequence for each piece with a style. -/
theorem ReportLine.Clean.count_render {line : ReportLine} (h : line.Clean) :
    (line.flatMap fun p => (p.render true).toList).count '\x1b' =
      2 * line.countP (·.style.isSome) := by
  induction line with
  | nil => rfl
  | cons p line ih =>
    rw [ReportLine.clean_cons] at h
    rw [List.flatMap_cons, List.count_append, p.count_render h.1, ih h.2, List.countP_cons]
    split <;> omega

section Lines

variable {lines : List ReportLine} (h : ∀ line ∈ lines, line.Clean)
include h

theorem reads_renderLines :
    Style.Reads (renderLines true lines).toList (renderLines false lines).toList := by
  rw [toList_renderLines, toList_renderLines]
  refine Style.reads_flatMap fun line hline => ?_
  refine (Style.reads_flatMap fun p hp => ?_).append (Style.reads_self (by decide))
  rw [p.render_false]
  exact p.reads_render (h line hline p hp)

theorem escapeFree_renderLines : EscapeFree (renderLines false lines) := by
  unfold EscapeFree
  rw [toList_renderLines]
  intro hin
  obtain ⟨line, hline, hin⟩ := List.mem_flatMap.mp hin
  rcases List.mem_append.mp hin with hin | hin
  · obtain ⟨p, hp, hin⟩ := List.mem_flatMap.mp hin
    rw [p.render_false] at hin
    exact h line hline p hp hin
  · exact absurd hin (by decide)

theorem count_renderLines : (renderLines true lines).toList.count '\x1b' =
    2 * lines.flatten.countP (·.style.isSome) := by
  rw [toList_renderLines]
  induction lines with
  | nil => rfl
  | cons line lines ih =>
    have hend : ['\n'].count '\x1b' = 0 := by decide
    rw [List.flatMap_cons, List.count_append, List.count_append, hend,
      (h line List.mem_cons_self).count_render, ih fun l hl => h l (List.mem_cons_of_mem line hl),
      List.flatten_cons, List.countP_append]
    omega

end Lines

/-! ## The texts of results -/

/-- The texts that the mutation in words has from the source. -/
def Mutation.texts : Mutation → List String
  | .fieldWrite field => [field]
  | .referenceEscape target => [target]
  | .unclassifiable construct => [construct]
  | _ => []

def Finding.texts (f : Finding) : List String := [f.file, f.message]

def MemberExplanation.texts (m : MemberExplanation) : List String :=
  [m.kind, m.name] ++ m.evidence.flatMap (·.mutation.texts) ++ m.escalatedThrough

def StructExplanation.texts (e : StructExplanation) : List String :=
  e.name :: e.members.flatMap (·.texts)

def FileReport.texts (f : FileReport) : List String :=
  f.path :: (f.findings.flatMap (·.texts) ++ f.explanations.flatMap (·.texts))

def FileFailure.texts (f : FileFailure) : List String := [f.path, f.message]

/-- The texts of results that a report for a terminal shows. -/
def Results.texts (r : Results) : List String :=
  r.files.flatMap (·.texts) ++ r.failures.flatMap (·.texts)

/-! ## Reports -/

open ReportLine

theorem Mutation.escapeFree_describe {m : Mutation} (h : ∀ t ∈ m.texts, EscapeFree t) :
    EscapeFree m.describe := by
  cases m with
  | fieldWrite field =>
    have hfield : EscapeFree field := h field List.mem_cons_self
    exact .append (.append (by decide) hfield) (by decide)
  | referenceEscape target =>
    have htarget : EscapeFree target := h target List.mem_cons_self
    exact .append (.append (by decide) htarget) (by decide)
  | unclassifiable construct =>
    have hconstruct : EscapeFree construct := h construct List.mem_cons_self
    exact .append (by decide) hconstruct
  | _ => decide

theorem Finding.clean_line {f : Finding} (h : ∀ t ∈ f.texts, EscapeFree t) : f.line.Clean := by
  obtain ⟨hfile, hmessage⟩ : EscapeFree f.file ∧ EscapeFree f.message := by simpa [texts] using h
  have hcode : EscapeFree f.rule.code := by
    cases f.rule <;> decide
  have hseverity : EscapeFree f.severity.piece.text := by
    cases f.severity <;> decide
  simp +decide [line, hfile, hmessage, hcode, hseverity]

theorem Evidence.clean_line {e : Evidence} (h : ∀ t ∈ e.mutation.texts, EscapeFree t) :
    e.line.Clean := by
  have hdescribe := e.mutation.escapeFree_describe h
  unfold line
  split
  · simp +decide [hdescribe]
  · simp +decide [hdescribe]

theorem MemberExplanation.clean_lines {m : MemberExplanation} (h : ∀ t ∈ m.texts, EscapeFree t) :
    ∀ line ∈ m.lines, line.Clean := by
  simp only [texts, List.forall_mem_append, List.forall_mem_cons, List.forall_mem_flatMap] at h
  obtain ⟨⟨⟨hkind, hname, -⟩, hevidence⟩, hthrough⟩ := h
  have hverdict : EscapeFree m.verdict.piece.text := by
    cases m.verdict <;> decide
  have hmarker : EscapeFree (if m.suggested then " (suggested)" else "") := by
    split <;> decide
  simp only [lines, List.forall_mem_append, List.forall_mem_singleton, List.forall_mem_map]
  refine ⟨⟨?_, fun e he => e.clean_line (hevidence e he)⟩, ?_⟩
  · simp +decide [hkind, hname, hverdict, hmarker]
  · split
    · simp
    · have hcalls : EscapeFree (String.intercalate " -> " m.escalatedThrough) :=
        escapeFree_intercalate (by decide) hthrough
      simp +decide [hcalls]

theorem StructExplanation.clean_lines {e : StructExplanation} (h : ∀ t ∈ e.texts, EscapeFree t)
    {path : String} (hpath : EscapeFree path) : ∀ line ∈ e.lines path, line.Clean := by
  simp only [texts, List.forall_mem_cons, List.forall_mem_flatMap] at h
  obtain ⟨hname, hmembers⟩ := h
  simp only [lines, List.forall_mem_append, List.forall_mem_singleton, List.forall_mem_flatMap]
  refine ⟨⟨⟨?_, ?_⟩, fun m hm => m.clean_lines (hmembers m hm)⟩, clean_nil⟩
  · simp +decide [hname, hpath]
  · split
    · simp +decide
    · simp

namespace Results

theorem clean_headerLines : ∀ line ∈ headerLines, line.Clean := by
  have hrule : rule.Clean := by
    have htext : EscapeFree ("".pushn '═' 43) := escapeFree_pushn (by decide) (by decide) 43
    simp [rule, htext]
  simp +decide [headerLines, hrule, empty]

theorem clean_summaryLines (r : Results) : ∀ line ∈ r.summaryLines, line.Clean := by
  have htitle := clean_title (show EscapeFree "📊 " by decide) (show EscapeFree "Summary" by decide)
  simp only [List.forall_mem_cons] at htitle
  unfold summaryLines
  simp only [List.forall_mem_append]
  refine ⟨⟨?_, ?_⟩, ?_⟩
  · simp +decide [htitle]
  · split
    · simp +decide
    · simp
  · simp +decide [empty]

theorem clean_statusLine (r : Results) : r.statusLine.Clean := by
  unfold statusLine
  split
  · simp +decide
  · split
    · simp +decide
    · simp +decide

section Shown

variable {r : Results} (h : ∀ t ∈ r.texts, EscapeFree t)
include h

theorem escapeFree_of_mem_file {f : FileReport} (hf : f ∈ r.files) :
    ∀ t ∈ f.texts, EscapeFree t := by
  simp only [texts, List.forall_mem_append, List.forall_mem_flatMap] at h
  exact h.1 f hf

theorem clean_findingLines : ∀ line ∈ r.findingLines, line.Clean := by
  unfold findingLines
  split
  · simp
  · simp only [findings, List.forall_mem_append, List.forall_mem_map, List.forall_mem_flatMap,
      List.forall_mem_singleton]
    refine ⟨⟨clean_title (by decide) (by decide), fun f hf x hx => ?_⟩, clean_nil⟩
    have hfile := escapeFree_of_mem_file h hf
    simp only [FileReport.texts, List.forall_mem_cons, List.forall_mem_append,
      List.forall_mem_flatMap] at hfile
    exact x.clean_line (hfile.2.1 x hx)

theorem clean_explanationLines : ∀ line ∈ r.explanationLines, line.Clean := by
  unfold explanationLines
  split
  · simp only [FileReport.explanationLines, List.forall_mem_append, List.forall_mem_flatMap]
    refine ⟨clean_title (by decide) (by decide), fun f hf e he => ?_⟩
    have hfile := escapeFree_of_mem_file h hf
    simp only [FileReport.texts, List.forall_mem_cons, List.forall_mem_append,
      List.forall_mem_flatMap] at hfile
    exact e.clean_lines (hfile.2.2 e he) hfile.1
  · simp

theorem clean_failureLines : ∀ line ∈ r.failureLines, line.Clean := by
  simp only [texts, List.forall_mem_append, List.forall_mem_flatMap] at h
  unfold failureLines
  split
  · simp
  · simp only [List.forall_mem_append, List.forall_mem_map, List.forall_mem_singleton]
    refine ⟨⟨clean_title (by decide) (by decide), fun x hx => ?_⟩, clean_nil⟩
    obtain ⟨hpath, hmessage⟩ : EscapeFree x.path ∧ EscapeFree x.message := by
      simpa [FileFailure.texts] using h.2 x hx
    simp +decide [hpath, hmessage]

/-- Every line of a report shows texts of the results and words of its own, and neither have escape
characters. -/
theorem clean_lines : ∀ line ∈ r.lines, line.Clean := by
  unfold lines
  simp only [List.forall_mem_append, List.forall_mem_singleton]
  exact ⟨⟨⟨⟨⟨clean_headerLines, r.clean_summaryLines⟩, clean_findingLines h⟩,
    clean_explanationLines h⟩, clean_failureLines h⟩, r.clean_statusLine⟩

end Shown

end Results

/-- If no text that a report shows has an escape character, the report with colours and the plain one
have the same text: the plain one is what is left of the other without its escape sequences. It has
no escape character itself, and the coloured one has two, a sequence before and one after, for each
piece with a style. -/
theorem colours_leave_the_text_of_a_report (r : Results) (h : ∀ t ∈ r.texts, EscapeFree t) :
    Style.deleteSequences (r.terminalText true).toList = (r.terminalText false).toList ∧
      EscapeFree (r.terminalText false) ∧
      (r.terminalText true).toList.count '\x1b' = 2 * r.lines.flatten.countP (·.style.isSome) := by
  have hclean := Results.clean_lines h
  exact ⟨(reads_renderLines hclean).deleteSequences_eq, escapeFree_renderLines hclean,
    count_renderLines hclean⟩

/-- Results with a file, a struct and a failure whose names look like the end of a sequence. -/
def resultsWithBrackets : Results :=
  let span : Span := { start := 0, stop := 1, line := 1, column := 1 }
  let member : MemberExplanation :=
    { name := "[0m", kind := "method", location := some span, verdict := .mutating
      suggested := false, evidence := [{ mutation := .fieldWrite "[31m", span := some span }]
      escalatedThrough := ["[1;34m", "m"] }
  let finding : Finding :=
    { rule := .readonlyMember, severity := .warning, message := "[33m", file := "[2m.cs", span
      declaration := "S", name := "M", kind := .method, explicitInterface := none
      fix := { offset := 0, text := "readonly " } }
  .ofFiles "."
    [{ path := "[2m.cs", structs := 1, members := 1, findings := [finding]
       explanations := [{ name := "[m", location := span, suggested := false
                          members := [member] }] }]
    [{ path := "[0m.cs", message := "[0m" }]

/-- What looks like the end of a sequence stays, since no escape character comes before it. -/
theorem brackets_are_text :
    (∀ t ∈ resultsWithBrackets.texts, EscapeFree t) ∧
      Style.deleteSequences (resultsWithBrackets.terminalText true).toList =
        (resultsWithBrackets.terminalText false).toList ∧
      (resultsWithBrackets.terminalText true).toList.count '\x1b' = 26 := by
  have htexts : ∀ t ∈ resultsWithBrackets.texts, EscapeFree t := by decide
  obtain ⟨hsame, -, hcount⟩ := colours_leave_the_text_of_a_report resultsWithBrackets htexts
  have hpieces : resultsWithBrackets.lines.flatten.countP (·.style.isSome) = 13 := by decide
  rw [hpieces] at hcount
  exact ⟨htexts, hsame, hcount⟩

end ReadonlyLint
