/-!
The fields of the C# grammar: the part that a child plays in its parent node.
-/
namespace ReadonlyLint

/-- The part that a node plays in its parent. -/
inductive Field where
  | type | returns | name | parameters | typeParameters | body | left | right | operator
  | expression | subscript | function | arguments | value | accessors
  /-- Any other field, by its name. -/
  | other (name : String)
  deriving DecidableEq, Inhabited

namespace Field

/-- The field with the given name in the grammar; a child without a field has the empty name. -/
def ofName? (name : String) : Option Field :=
  match name with
  | "" => none
  | "type" => some .type
  | "returns" => some .returns
  | "name" => some .name
  | "parameters" => some .parameters
  | "type_parameters" => some .typeParameters
  | "body" => some .body
  | "left" => some .left
  | "right" => some .right
  | "operator" => some .operator
  | "expression" => some .expression
  | "subscript" => some .subscript
  | "function" => some .function
  | "arguments" => some .arguments
  | "value" => some .value
  | "accessors" => some .accessors
  | name => some (.other name)

/-- Fields that hold declared names and types: nothing in them is evaluated. -/
def isDeclarative : Field → Bool
  | .type | .returns | .name | .parameters | .typeParameters => true
  | _ => false

end Field

end ReadonlyLint
