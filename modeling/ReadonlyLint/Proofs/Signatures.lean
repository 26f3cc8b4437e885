import ReadonlyLint.Proofs.Parts
import ReadonlyLint.Struct.Reader

/-!
What a member can see of the others. The rules for code ask of another member which it is, what it
is called, what kind it is of and whether it has a body (`Member.signature`), and never what its
body does. So two structs that differ only inside of the other members show the same for a member
that they share: nothing is known across members before the verdicts are propagated.
-/
namespace ReadonlyLint

namespace Member

/-- The member without what no other member can see: the inside of its body, its parameters, how it
returns, where it stands, whether it is `readonly` and whether there is a syntax error in it. -/
def signature (m : Member) : Member :=
  { m with
    modifiers := { m.modifiers with isReadonly := false }
    alreadyReadonly := false
    parameters := []
    returns := .value
    body := m.body.map fun _ => default
    anchor := none
    fixOffset := 0
    malformed := false }

/-- The members differ at most in the inside of their bodies, in their parameters, in how they
return, in where they stand, in whether they are `readonly` and in their syntax errors. -/
structure LooksLike (m m' : Member) : Prop where
  id : m'.id = m.id
  name : m'.name = m.name
  kind : m'.kind = m.kind
  isStatic : m'.modifiers.isStatic = m.modifiers.isStatic
  isConst : m'.modifiers.isConst = m.modifiers.isConst
  isPartial : m'.modifiers.isPartial = m.modifiers.isPartial
  isFixed : m'.modifiers.isFixed = m.modifiers.isFixed
  explicitInterface : m'.explicitInterface = m.explicitInterface
  synthesized : m'.synthesized = m.synthesized
  hasBody : m'.body.isSome = m.body.isSome

theorem LooksLike.signature_eq {m m' : Member} (h : m.LooksLike m') :
    m'.signature = m.signature := by
  have hbody : m'.body.map (fun _ => (default : Node)) = m.body.map fun _ => default := by
    have hsome := h.hasBody
    rcases hm : m.body with _ | body <;> rcases hm' : m'.body with _ | body'
    · rfl
    · simp [hm, hm'] at hsome
    · simp [hm, hm'] at hsome
    · rfl
  unfold signature
  dsimp only
  rw [h.id, h.name, h.kind, h.isStatic, h.isConst, h.isPartial, h.isFixed, h.explicitInterface,
    h.synthesized, hbody]

end Member

namespace StructDecl

/-! ## What is seen of a struct -/

/-- The struct without what no member of it can see. -/
def seen (d : StructDecl) : StructDecl :=
  { d.mapParts Member.signature id with
    anchor := default
    isRecord := false
    hasBodyErrors := false
    fixOffset := 0 }

/-- No rule for code reads more of another member than its signature. -/
theorem unread_signature : Unread Member.signature id where
  id := fun _ => rfl
  kind := fun _ => rfl
  isStatic := fun _ => rfl
  isPartial := fun _ => rfl
  hasBody := fun _ => Option.isSome_map
  groupId := fun _ => rfl
  groupName := fun _ => rfl
  groupKind := fun _ => rfl
  groupIsStatic := fun _ => rfl
  accessors := fun _ => rfl
  anchor := fun _ => rfl

/-- A member shows the same in what is seen of its struct. -/
theorem analyzeMember_seen (d : StructDecl) (m : Member) :
    d.seen.analyzeMember m = d.analyzeMember m := by
  rw [← analyzeMember_mapParts unread_signature d m]
  -- what is left to compare is the place and the outline of the struct, which no rule asks for
  have hagrees : ((d.mapParts Member.signature id).viewpoint m).Agrees (d.seen.viewpoint m) :=
    { throughField := rfl
      memberStorage := rfl
      useGroup := rfl
      useIndexers := rfl
      useName := rfl
      declares := fun _ => rfl
      isPartial := rfl }
  exact analyzeMember_congr hagrees rfl rfl

/-! ## Structs that differ inside of members -/

/-- The structs have the member at the place in common and differ at most inside of the others. -/
structure SameBut (place : Nat) (d d' : StructDecl) : Prop where
  name : d'.name = d.name
  modifiers : d'.modifiers = d.modifiers
  groups : d'.groups = d.groups
  events : d'.events = d.events
  symbols : d'.symbols = d.symbols
  size : d'.members.size = d.members.size
  member : d'.member? place = d.member? place
  others : ∀ other ≠ place, ∀ m m', d.member? other = some m → d'.member? other = some m' →
    m.LooksLike m'

theorem SameBut.signatures_eq {place : Nat} {d d' : StructDecl} (h : d.SameBut place d') :
    d'.members.map Member.signature = d.members.map Member.signature := by
  apply Array.ext_getElem?
  intro i
  rw [Array.getElem?_map, Array.getElem?_map]
  by_cases hi : i = place
  · subst hi
    exact congrArg (Option.map Member.signature) h.member
  · by_cases hlt : i < d.members.size
    · have hlt' : i < d'.members.size := h.size ▸ hlt
      have hm : d.member? i = some d.members[i] := Array.getElem?_eq_getElem hlt
      have hm' : d'.member? i = some d'.members[i] := Array.getElem?_eq_getElem hlt'
      have hlike := h.others i hi _ _ hm hm'
      rw [Array.getElem?_eq_getElem hlt, Array.getElem?_eq_getElem hlt', Option.map_some,
        Option.map_some, hlike.signature_eq]
    · have hge : d.members.size ≤ i := Nat.le_of_not_lt hlt
      have hge' : d'.members.size ≤ i := h.size ▸ hge
      rw [Array.getElem?_eq_none hge, Array.getElem?_eq_none hge']

/-- Nothing that is seen tells the two structs apart. -/
theorem SameBut.seen_eq {place : Nat} {d d' : StructDecl} (h : d.SameBut place d') :
    d'.seen = d.seen := by
  unfold seen mapParts
  rw [h.signatures_eq, h.name, h.modifiers, h.groups, h.events, h.symbols]

end StructDecl

/-- A member shows the same evidence and the same uses in two structs that differ only inside of
their other members. -/
theorem a_member_is_looked_at_without_the_insides_of_others {place : Nat} {d d' : StructDecl}
    (h : d.SameBut place d') {m : Member} (hm : d.member? place = some m) :
    d'.member? place = some m ∧ d'.analyzeMember m = d.analyzeMember m := by
  refine ⟨h.member.trans hm, ?_⟩
  calc d'.analyzeMember m = d'.seen.analyzeMember m := (d'.analyzeMember_seen m).symm
    _ = d.seen.analyzeMember m := by rw [h.seen_eq]
    _ = d.analyzeMember m := d.analyzeMember_seen m

/-- The struct of the file `struct S { int f; void M() { this.f++; N(); } void N() { } }`. -/
def callingStruct : StructDecl :=
  let body : Node := .tree .block "\x7b this.f++; N(); \x7d" 27
    [.word .openBrace "\x7b" 27,
     .tree (.other "expression_statement") "this.f++;" 29
      [.thisIncrement "f" 29, .word (.other ";") ";" 37],
     .tree (.other "expression_statement") "N();" 39
      [.tree .invocationExpression "N()" 39
        [.tree .identifier "N" 39 [] (some .function),
         .tree (.other "argument_list") "()" 40 [.word .openParen "(" 40, .word .closeParen ")" 41]
          (some .arguments)],
       .word (.other ";") ";" 42],
     .word .closeBrace "\x7d" 44]
  let members : List Node :=
    [.intField "f" 11, .voidMethod "M" 18 body, .voidMethod "N" 46 (.emptyBlock 55)]
  (StructDecl.ofTree (.structOf members)).head!

/-- The same struct with `ref int N(int* p) { this.f++; }` in place of `void N() { }`, and with a
syntax error in it. -/
def changedStruct : StructDecl :=
  { callingStruct with
    members := callingStruct.members.modify 2 fun m =>
      { m with
        parameters := [{ name := "p", isPointer := true }]
        returns := .ref
        body := some (.incrementBlock 65)
        anchor := none
        fixOffset := 48
        malformed := true }
    hasBodyErrors := true }

/-- `M` writes the field and uses `N`, and shows no more when `N` itself has come to mutate. -/
theorem a_caller_does_not_know_what_it_calls :
    ∃ m n, callingStruct.member? 1 = some m ∧ changedStruct.member? 2 = some n ∧
      (callingStruct.analyzeMember m).mutates = true ∧
      (callingStruct.analyzeMember m).uses.toList = [2] ∧
      changedStruct.analyzeMember m = callingStruct.analyzeMember m ∧
      (changedStruct.analyzeMember n).mutates = true := by
  have hfound : ∀ place, changedStruct.member? place =
      if 2 = place then (callingStruct.member? place).map _ else callingStruct.member? place :=
    fun _ => Array.getElem?_modify
  have hsame : callingStruct.SameBut 1 changedStruct := by
    refine
      { name := rfl, modifiers := rfl, groups := rfl, events := rfl, symbols := rfl
        size := Array.size_modify
        member := hfound 1
        others := ?_ }
    intro other _ m m' hm hm'
    rw [hfound] at hm'
    split at hm'
    · rename_i hother
      subst hother
      have hbody : m.body.isSome = true := by
        have hsome : (callingStruct.member? 2).all (·.body.isSome) = true := by decide +kernel
        rw [hm] at hsome
        exact hsome
      rw [hm] at hm'
      cases hm'
      exact ⟨rfl, rfl, rfl, rfl, rfl, rfl, rfl, rfl, rfl, hbody.symm⟩
    · rw [hm] at hm'
      cases hm'
      exact ⟨rfl, rfl, rfl, rfl, rfl, rfl, rfl, rfl, rfl, rfl⟩
  have hm : callingStruct.member? 1 = some callingStruct.members[1]! := rfl
  have hn : changedStruct.member? 2 = some changedStruct.members[2]! := rfl
  obtain ⟨-, hshown⟩ := a_member_is_looked_at_without_the_insides_of_others hsame hm
  exact ⟨_, _, hm, hn, by decide +kernel, by decide +kernel, hshown, by decide +kernel⟩

end ReadonlyLint
