import ReadonlyLint.Syntax.Node

/-!
The flat form of a syntax tree: its nodes in pre-order, each with its depth. `Node.ofRows?` reads
the tree back from its rows.
-/
namespace ReadonlyLint

/-- One node of a tree in its flat form. -/
structure Row where
  depth : Nat
  start : Nat
  stop : Nat
  /-- The name of the kind; empty for a keyword or a mark, whose kind is its own text. -/
  kind : String := ""
  /-- The name of the field; empty for none. -/
  field : String := ""
  /-- Not named, although the kind is given. -/
  anonymous : Bool := false
  missing : Bool := false
  hasError : Bool := false
  deriving DecidableEq, Inhabited

namespace Row

/-- The node of a row, over the nodes below it. -/
def toNode (source : Source) (row : Row) (children : List Node) : Node :=
  let text := source.slice row.start row.stop
  { kind := Kind.ofName (if row.kind = "" then text else row.kind)
    field := Field.ofName? row.field
    named := row.kind ≠ "" && !row.anonymous
    missing := row.missing
    hasError := row.hasError
    span := source.span row.start row.stop
    text
    children }

/-- Puts a row in front of the trees that follow it: those deeper than the row, up to the first
that is not, are its children. -/
def graft (source : Source) (row : Row) (trees : List (Nat × Node)) : List (Nat × Node) :=
  let (below, after) := trees.span (fun tree => row.depth < tree.1)
  (row.depth, row.toNode source (below.map (·.2))) :: after

end Row

/-- A row written on a line, its cells divided by tabs; cells left out at the end are empty. The last
cell adds up one for a row that is not named, two for a missing one and four for one with an error. -/
def Row.ofLine? (line : String) : Option Row := do
  let cells := line.splitOn "\t"
  let cell (i : Nat) : String := cells[i]?.getD ""
  let flags := (cell 5).toNat?.getD 0
  some
    { depth := ← (cell 0).toNat?
      start := ← (cell 1).toNat?
      stop := ← (cell 2).toNat?
      kind := cell 3
      field := cell 4
      anonymous := flags.testBit 0
      missing := flags.testBit 1
      hasError := flags.testBit 2 }

/-- The tree with the given rows. There is none without rows. -/
def Node.ofRows? (text : String) (rows : List Row) : Option Node :=
  let source := Source.ofString text
  (rows.foldr (Row.graft source) []).head?.map (·.2)

end ReadonlyLint
