import ReadonlyLint.Types.Table

/-!
The written types of a file with their categories, for inspection.
-/
namespace ReadonlyLint

/-- The categories of everything in a file that has one. -/
structure TypeSurvey where
  /-- The type parameters of each struct or record, with the place of its declaration. -/
  generics : List (Span × Bindings TypeCategory)
  /-- Each written type with its category, outer types before inner ones. -/
  types : List (Span × TypeCategory)

namespace TypeSurvey

mutual

/-- The written types below a node, with the type parameters in force around it. -/
def typesIn (t : TypeTable) (generics : Bindings TypeCategory) : Node → List (Span × TypeCategory)
  | ⟨kind, field, named, missing, hasError, span, text, children⟩ =>
    let n : Node := ⟨kind, field, named, missing, hasError, span, text, children⟩
    let inForce :=
      if kind = .structDeclaration || kind = .recordDeclaration then genericCategories n
      else generics
    typesInAll t inForce children

def typesInAll (t : TypeTable) (generics : Bindings TypeCategory) :
    List Node → List (Span × TypeCategory)
  | [] => []
  | n :: rest =>
    let here :=
      if n.field = some .type || n.field = some .returns then
        [(n.span, t.categorize generics n)]
      else []
    here ++ typesIn t generics n ++ typesInAll t generics rest

end

/-- The survey of a tree. -/
def ofTree (t : TypeTable) (root : Node) : TypeSurvey :=
  let declarations := root.preorder.filter fun n =>
    n.kind = .structDeclaration || n.kind = .recordDeclaration
  { generics := declarations.map fun n => (n.span, genericCategories n)
    types := typesIn t [] root }

end TypeSurvey

end ReadonlyLint
