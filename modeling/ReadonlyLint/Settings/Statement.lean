import ReadonlyLint.Settings.Scalar

/-!
The statements of a TOML document: headers of tables and entries under them. What the statements
build together is not looked at here.
-/
namespace ReadonlyLint.Toml

/-- The parts of a key between its dots: those before the last, and the last. -/
structure Key where
  path : List String
  name : String
  deriving DecidableEq, Inhabited

/-- Puts a part in front of a key. -/
def Key.under (part : String) (key : Key) : Key := { key with path := part :: key.path }

/-! ## Changing a table -/

namespace Entries

/-- Changes the table at the end of a path, given how it came about and its entries. Tables missing
on the way come about as `origin`; values that are no open tables bar the way, and so do, for the
dots of a key, tables with a header of their own. Of repeated tables, the last is meant. -/
def update (origin : Origin) (change : Origin → Entries → Option Entries) :
    List String → Origin → Entries → Option Entries
  | [], own, entries => change own entries
  | part :: path, _, entries => do
    match entries.lookup part with
    | none => some (entries.put part (.table origin (← update origin change path origin [])))
    | some (.table own inner) =>
      if own = .inline || (origin = .dotted && own = .header) then none
      else some (entries.put part (.table own (← update origin change path own inner)))
    | some (.tables earlier last) =>
      some (entries.put part (.tables earlier (← update origin change path .header last)))
    | some _ => none

/-- Gives a new key its value. The tables on the way are made by the dots of the key, or were made
so before. -/
def assign (key : Key) (value : Value) : Origin → Entries → Option Entries :=
  update .dotted
    (fun own entries =>
      if (own ≠ .dotted && !key.path.isEmpty) || (entries.lookup key.name).isSome then none
      else some (entries.put key.name value))
    key.path

/-- Opens a table by its header. It must be new, or only implied so far. -/
def openTable (key : Key) : Origin → Entries → Option Entries :=
  update .implied
    (fun _ entries =>
      match entries.lookup key.name with
      | none => some (entries.put key.name (.table .header []))
      | some (.table .implied inner) => some (entries.put key.name (.table .header inner))
      | some _ => none)
    key.path

/-- Opens the next of the repeated tables of a header. -/
def openNext (key : Key) : Origin → Entries → Option Entries :=
  update .implied
    (fun _ entries =>
      match entries.lookup key.name with
      | none => some (entries.put key.name (.tables [] []))
      | some (.tables earlier last) =>
        some (entries.put key.name (.tables (earlier ++ [last]) []))
      | some _ => none)
    key.path

end Entries

/-! ## Keys and values -/

def isKeyChar (c : Char) : Bool := c.isAlphanum || c = '_' || c = '-'

/-- One part of a key, bare or quoted. -/
def keyPart? (cs : List Char) : Option (String × List Char) :=
  let (bare, rest) := cs.span isKeyChar
  if bare.isEmpty then lineText? cs else some (String.ofList bare, rest)

/-- A key with at most so many dots. -/
def keyTo? : Nat → List Char → Option (Key × List Char)
  | dots, cs => do
    let (part, rest) ← keyPart? (skipBlanks cs)
    match dots, skipBlanks rest with
    | dots + 1, '.' :: rest =>
      let (key, rest) ← keyTo? dots rest
      some (key.under part, rest)
    | _, rest => some ({ path := [], name := part }, rest)

/-- How many parts a key may have, and how many arrays and tables in braces may nest. -/
def maxDepth : Nat := 80

/-- A key, with the blanks around its parts. -/
def key? (cs : List Char) : Option (Key × List Char) := keyTo? (maxDepth - 1) cs

mutual

/-- A value in which at most so many arrays and tables nest. The first argument bounds the number of
steps. -/
def valueTo? : Nat → Nat → List Char → Option (Value × List Char)
  | 0, _, _ => none
  | n + 1, depth, cs =>
    match depth, cs with
    | depth + 1, '[' :: cs => do
      let (items, rest) ← itemsTo? n depth cs
      some (.array items, rest)
    | depth + 1, '\x7b' :: cs => do
      let (entries, rest) ← inlineTo? n depth [] cs
      some (.table .inline entries, rest)
    | _, '"' :: _ | _, '\x27' :: _ => (text? cs).map fun (text, rest) => (.string text, rest)
    | _, _ => do
      let (word, rest) := scalarText cs
      some (← scalar? word, rest)

/-- The rest of an array. Its items are divided by commas; one may stand after the last. -/
def itemsTo? : Nat → Nat → List Char → Option (List Value × List Char)
  | 0, _, _ => none
  | n + 1, depth, cs =>
    match skipLayout cs with
    | ']' :: rest => some ([], rest)
    | cs => do
      let (item, rest) ← valueTo? n depth cs
      match skipLayout rest with
      | ',' :: rest =>
        let (items, rest) ← itemsTo? n depth rest
        some (item :: items, rest)
      | ']' :: rest => some ([item], rest)
      | _ => none

/-- The entries of a table in braces up to its end, added to those so far. They are divided by commas;
one may stand after the last. -/
def inlineTo? : Nat → Nat → Entries → List Char → Option (Entries × List Char)
  | 0, _, _, _ => none
  | n + 1, depth, entries, cs =>
    match skipLayout cs with
    | '\x7d' :: rest => some (entries, rest)
    | cs => do
      let (key, rest) ← key? cs
      let (value, rest) ← valueTo? n depth (skipLayout (← after? '=' (skipLayout rest)))
      let entries ← entries.assign key value .inline
      match skipLayout rest with
      | ',' :: rest => inlineTo? n depth entries rest
      | '\x7d' :: rest => some (entries, rest)
      | _ => none

end

/-- A value. -/
def value? (cs : List Char) : Option (Value × List Char) := valueTo? (2 * cs.length + 2) maxDepth cs

/-! ## Statements -/

/-- A statement of a document. -/
inductive Statement where
  /-- Opens a table. -/
  | header (key : Key)
  /-- Opens the next of several tables under one header. -/
  | nextHeader (key : Key)
  /-- Gives a key of the open table its value. -/
  | entry (key : Key) (value : Value)
  deriving Inhabited

/-- The statement that starts here. -/
def statement? : List Char → Option (Statement × List Char)
  | '[' :: '[' :: cs => do
    let (key, rest) ← key? cs
    some (.nextHeader key, ← after? ']' (← after? ']' rest))
  | '[' :: cs => do
    let (key, rest) ← key? cs
    some (.header key, ← after? ']' rest)
  | cs => do
    let (key, rest) ← key? cs
    let (value, rest) ← value? (skipBlanks (← after? '=' rest))
    some (.entry key value, rest)

/-- The statements of a text with at most so many lines. -/
def statementsTo? : Nat → List Char → Option (List Statement)
  | _, [] => some []
  | 0, _ => none
  | n + 1, cs =>
    match lineEnd? cs with
    | some rest => statementsTo? n rest
    | none => do
      let (statement, rest) ← statement? (skipBlanks cs)
      return statement :: (← statementsTo? n (← lineEnd? rest))

/-- The statements of a text, which may start with a byte order mark. -/
def statements? (text : String) : Option (List Statement) :=
  let cs := match text.toList with
    | '\ufeff' :: cs => cs
    | cs => cs
  statementsTo? (cs.length + 1) cs

/-! ## Documents -/

/-- The tables that the statements so far have built, and the path to the open one. -/
structure Draft where
  openPath : List String := []
  entries : Entries := []
  deriving Inhabited

namespace Draft

/-- The draft after one more statement, unless it contradicts the statements before it. -/
def add? (d : Draft) : Statement → Option Draft
  | .header key => do
    some { openPath := key.path ++ [key.name], entries := ← d.entries.openTable key .header }
  | .nextHeader key => do
    some { openPath := key.path ++ [key.name], entries := ← d.entries.openNext key .header }
  | .entry key value => do
    let entries ← d.entries.update .implied (Entries.assign key value) d.openPath .header
    some { d with entries }

end Draft

/-- Reads a document. -/
def document? (text : String) : Option Value := do
  let draft ← (← statements? text).foldlM Draft.add? {}
  some (.table .header draft.entries)

end ReadonlyLint.Toml
