import ReadonlyLint.Proofs.Bodies
import ReadonlyLint.Proofs.Members

/-!
The sizes of new arrays. The size in `new int[e]` stands inside the written type of the array, and
no rule looks into the type of a new array: what a member shows is the same whatever stands there.
A write or a call in a size is therefore never noticed by itself.
-/
namespace ReadonlyLint

namespace Node

/-! ## A tree without its array sizes -/

mutual

/-- The tree with nothing inside of the type of any new array, so without the sizes. -/
def eraseSizes : Node → Node
  | ⟨kind, field, named, missing, hasError, span, text, children⟩ =>
    let makesArray := kind = .arrayCreationExpression || kind = .stackallocExpression
    ⟨kind, field, named, missing, hasError, span, text, eraseSizesAll makesArray children⟩

/-- The same for the children of a node that makes an array, or of one that does not. -/
def eraseSizesAll (makesArray : Bool) : List Node → List Node
  | [] => []
  | n :: rest =>
    let erased := if makesArray && n.isArrayType then { n with children := [] } else n.eraseSizes
    erased :: eraseSizesAll makesArray rest

end

theorem sameLabel_eraseSizes (n : Node) : n.eraseSizes.SameLabel n := by
  cases n
  rw [eraseSizes]
  exact ⟨rfl, rfl, rfl, rfl, rfl⟩

/-- What stands for a child of a node in the tree without sizes. -/
def eraseChild (n c : Node) : Node :=
  if n.makesArray && c.isArrayType then { c with children := [] } else c.eraseSizes

theorem children_eraseSizes (n : Node) :
    n.eraseSizes.children = n.children.map n.eraseChild := by
  have hall : ∀ l : List Node, eraseSizesAll n.makesArray l = l.map n.eraseChild := by
    intro l
    induction l with
    | nil => rw [eraseSizesAll, List.map_nil]
    | cons c l ih => rw [eraseSizesAll, List.map_cons, ih, eraseChild]
  cases n
  rw [eraseSizes]
  exact hall _

theorem sameLabel_eraseChild (n c : Node) : (n.eraseChild c).SameLabel c := by
  unfold eraseChild
  split
  · exact ⟨rfl, rfl, rfl, rfl, rfl⟩
  · exact sameLabel_eraseSizes c

/-- A node that makes no array keeps all its children. -/
theorem children_eraseSizes_of_not_makesArray {n : Node} (hn : n.makesArray = false) :
    n.eraseSizes.children = n.children.map eraseSizes := by
  rw [children_eraseSizes]
  refine List.map_congr_left fun c _ => ?_
  simp [eraseChild, hn]

/-! ## No rule sees the difference -/

theorem alike_eraseSizes (n : Node) : Alike eraseSizes n := by
  by_cases hm : n.makesArray
  · -- no position is counted in a node that makes an array
    have hk : ∀ k, n.kind = k → k = .arrayCreationExpression ∨ k = .stackallocExpression := by
      rintro k rfl
      simpa [makesArray] using hm
    refine
      { label := sameLabel_eraseSizes n
        solid := ⟨n.eraseChild, ?_, fun c _ => ?_⟩
        inner := fun h => absurd (hk _ h) (by decide)
        last := by rintro (h | h | h | h) <;> exact absurd (hk _ h) (by decide)
        first := fun h => absurd (hk _ h) (by decide)
        value := fun h => absurd (hk _ h) (by decide)
        named := fun h => absurd (hk _ h) (by decide)
        entries := fun h => absurd (hk _ h) (by decide) }
    · rw [solid, solid, children_eraseSizes, List.filter_map]
      congr 1
      exact List.filter_congr fun c _ => by
        simp only [Function.comp, isLoose_map (sameLabel_eraseChild n)]
    · -- only the type loses its children; the other children are images
      by_cases hc : c.isArrayType
      · exact Or.inr ⟨hm, hc, sameLabel_eraseChild n c⟩
      · exact Or.inl (by simp [eraseChild, hc])
  · exact alike_of_children sameLabel_eraseSizes
      (children_eraseSizes_of_not_makesArray (by simpa using hm))

theorem carries_eraseSizes (n : Node) : Carries eraseSizes n := fun c _ => alike_eraseSizes c

end Node

/-! ## The law -/

/-- What a member shows, its evidence and its uses alike, does not depend on the sizes of the arrays
that it makes: it shows the same without them. -/
theorem an_array_size_is_never_looked_at (d : StructDecl) (m : Member) :
    d.analyzeMember { m with body := m.body.map Node.eraseSizes } = d.analyzeMember m := by
  have hcarried : ∀ body ∈ m.body, Node.Carries Node.eraseSizes body :=
    fun body _ => Node.carries_eraseSizes body
  exact d.analyzeMember_mapBody hcarried

/-- The body `{ var o = new int[this.f++]; }`. -/
def bodyWithSize : Node :=
  .tree .block "\x7b var o = new int[this.f++]; \x7d" 27
    [.word .openBrace "\x7b" 27,
     .tree (.other "local_declaration_statement") "var o = new int[this.f++];" 29
      [.tree .variableDeclaration "var o = new int[this.f++]" 29
        [.tree .implicitType "var" 29 [.word (.other "var") "var" 29] (some .type),
         .tree .variableDeclarator "o = new int[this.f++]" 33
          [.tree .identifier "o" 33 [] (some .name), .word .assign "=" 35,
           .tree .arrayCreationExpression "new int[this.f++]" 37
            [.word (.other "new") "new" 37,
             .tree .arrayType "int[this.f++]" 41
              [.tree .predefinedType "int" 41 [] (some .type),
               .tree .arrayRankSpecifier "[this.f++]" 44
                [.word (.other "[") "[" 44, .thisIncrement "f" 45, .word (.other "]") "]" 53]
                (some (.other "rank"))]
              (some .type)]]],
       .word (.other ";") ";" 54],
     .word .closeBrace "\x7d" 56]

/-- The body `{ this.f++; }`. -/
def bodyWithStatement : Node :=
  .tree .block "\x7b this.f++; \x7d" 27
    [.word .openBrace "\x7b" 27,
     .tree (.other "expression_statement") "this.f++;" 29
      [.thisIncrement "f" 29, .word (.other ";") ";" 37],
     .word .closeBrace "\x7d" 39]

/-- An increment of a field counts in a statement of its own, and does not in the size of an
array. -/
theorem an_increment_in_an_array_size_is_overlooked :
    StructDecl.mutatingNames (.structWithBody bodyWithStatement) = ["M"] ∧
      StructDecl.mutatingNames (.structWithBody bodyWithSize) = [] := by
  decide +kernel

end ReadonlyLint
