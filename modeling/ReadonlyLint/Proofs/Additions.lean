import Mathlib.Data.List.Induction
import ReadonlyLint.Proofs.Names

/-!
Declarations built up one addition at a time. Members, properties and events may be added in any
order and under any names. What a name then means is found by a plain scan of the additions, with no
log of names: the first property of the name, or else the first event, or else the first field, or
else all methods (`Addition.scan`).
-/
namespace ReadonlyLint

/-- One thing that is added to a declaration. -/
inductive Addition where
  | member (m : Member)
  | group (g : PropertyGroup)
  | event (e : CustomEvent)

/-! ## Scans -/

/-- The member is an accessor of a property, an indexer or an event. -/
def MemberKind.isAccessor : MemberKind → Bool
  | .accessor _ _ _ | .eventAccessor _ => true
  | _ => false

/-- The simple name can mean the member. -/
def Member.answersTo (name : String) (m : Member) : Bool :=
  m.name = name && m.explicitInterface = none && !m.kind.isAccessor

/-- The simple name can mean the property; an indexer has no name. -/
def PropertyGroup.answersTo (name : String) (g : PropertyGroup) : Bool :=
  g.name = name && g.explicitInterface = none && g.kind ≠ .indexer

namespace Addition

def member? : Addition → Option Member
  | .member m => some m
  | _ => none

def group? : Addition → Option PropertyGroup
  | .group g => some g
  | _ => none

def event? : Addition → Option CustomEvent
  | .event e => some e
  | _ => none

/-- The members that were added, each with the id that was free then. -/
def members (additions : List Addition) : List Member :=
  (additions.filterMap member?).mapIdx fun id m => { m with id }

/-- The properties and indexers that were added, each with the id that was free then. -/
def groups (additions : List Addition) : List PropertyGroup :=
  (additions.filterMap group?).mapIdx fun id g => { g with id }

def events (additions : List Addition) : List CustomEvent := additions.filterMap event?

theorem mapIdx_filterMap_concat {α β γ : Type} (pick : α → Option β) (number : Nat → β → γ)
    (l : List α) (a : α) :
    ((l ++ [a]).filterMap pick).mapIdx number =
      (l.filterMap pick).mapIdx number ++
        (pick a).toList.map (number (l.filterMap pick).length) := by
  cases hpick : pick a with
  | none => simp [hpick]
  | some b => simp [hpick, List.mapIdx_append]

theorem members_concat (additions : List Addition) (a : Addition) :
    members (additions ++ [a]) =
      members additions ++
        a.member?.toList.map fun m => { m with id := (members additions).length } := by
  unfold members
  rw [mapIdx_filterMap_concat, List.length_mapIdx]

theorem groups_concat (additions : List Addition) (a : Addition) :
    groups (additions ++ [a]) =
      groups additions ++
        a.group?.toList.map fun g => { g with id := (groups additions).length } := by
  unfold groups
  rw [mapIdx_filterMap_concat, List.length_mapIdx]

theorem events_concat (additions : List Addition) (a : Addition) :
    events (additions ++ [a]) = events additions ++ a.event?.toList := by
  unfold events
  rw [List.filterMap_append]
  cases h : a.event? <;> simp [h]

/-- What a name means, by a scan of what was added. -/
def scan (additions : List Addition) (name : String) : Option Resolved :=
  let candidates := (members additions).filter (·.answersTo name)
  match (groups additions).find? (·.answersTo name) with
  | some g => some (.property g)
  | none =>
    match (events additions).find? (·.name = name) with
    | some e => some (.event e)
    | none =>
      match candidates.find? (·.isField) with
      | some m => some (.field m)
      | none => if candidates.isEmpty then none else some (.methods candidates)

end Addition

namespace StructDecl

/-! ## Building a declaration -/

/-- The declaration before anything is added to it. -/
def bare (d : StructDecl) : StructDecl :=
  { d with members := #[], groups := #[], events := #[], symbols := [] }

def add (d : StructDecl) : Addition → StructDecl
  | .member m => d.pushMember m
  | .group g => d.pushGroup g
  | .event e => d.pushEvent e

def addAll (d : StructDecl) (additions : List Addition) : StructDecl := additions.foldl add d

section Add

variable (d : StructDecl) (a : Addition)

theorem members_add : (d.add a).members.toList =
    d.members.toList ++ a.member?.toList.map fun m => { m with id := d.members.size } := by
  cases a <;> simp [add, pushEvent, addSymbol, Addition.member?]

theorem groups_add : (d.add a).groups.toList =
    d.groups.toList ++ a.group?.toList.map fun g => { g with id := d.groups.size } := by
  cases a <;> simp [add, pushEvent, addSymbol, Addition.group?]

theorem events_add : (d.add a).events.toList = d.events.toList ++ a.event?.toList := by
  cases a <;> simp [add, pushEvent, Addition.event?]

variable {d}

theorem Logged.add (h : d.Logged) : (d.add a).Logged := by
  cases a with
  | member m => exact h.pushMember m
  | group g => exact h.pushGroup g
  | event e => exact h.pushEvent e

end Add

/-- The declaration has just what was added, in the order of the additions, and the log of names has
all of it that can be named. -/
structure BuiltBy (additions : List Addition) (d : StructDecl) : Prop where
  members : d.members.toList = Addition.members additions
  groups : d.groups.toList = Addition.groups additions
  events : d.events.toList = Addition.events additions
  logged : d.Logged

theorem builtBy_bare (d : StructDecl) : d.bare.BuiltBy [] := ⟨rfl, rfl, rfl, ⟨rfl, rfl, rfl⟩⟩

theorem BuiltBy.add {additions : List Addition} {d : StructDecl} (h : d.BuiltBy additions)
    (a : Addition) : (d.add a).BuiltBy (additions ++ [a]) where
  members := by
    rw [members_add, Addition.members_concat, ← h.members, Array.length_toList]
  groups := by
    rw [groups_add, Addition.groups_concat, ← h.groups, Array.length_toList]
  events := by rw [events_add, Addition.events_concat, ← h.events]
  logged := h.logged.add a

/-- Any sequence of additions builds what it adds. -/
theorem builtBy_addAll (d : StructDecl) (additions : List Addition) :
    (d.bare.addAll additions).BuiltBy additions := by
  induction additions using List.reverseRecOn with
  | nil => exact d.builtBy_bare
  | append_singleton additions a ih =>
    have hlast : d.bare.addAll (additions ++ [a]) = (d.bare.addAll additions).add a :=
      List.foldl_concat ..
    rw [hlast]
    exact ih.add a

end StructDecl

/-! ## The meaning of a name -/

theorem Member.answersTo_eq (name : String) (m : Member) :
    m.answersTo name = (m.isNamed && m.name = name) := by
  unfold answersTo isNamed
  cases m.kind <;> cases m.explicitInterface <;>
    simp [MemberKind.isAccessor, MemberKind.group?, MemberKind.isEventAccessor]

theorem PropertyGroup.answersTo_eq (name : String) (g : PropertyGroup) :
    g.answersTo name = (g.isNamed && g.name = name) := by
  unfold answersTo isNamed isIndexer
  cases g.explicitInterface <;> cases g.kind <;> simp

/-- Whatever was added to a declaration and in whatever order, a name means what a scan of the
additions finds. -/
theorem a_name_means_what_a_scan_of_the_additions_finds (d : StructDecl)
    (additions : List Addition) (name : String) :
    (d.bare.addAll additions).resolve name = Addition.scan additions name := by
  have hbuilt := d.builtBy_addAll additions
  rw [StructDecl.resolve_eq_preferred hbuilt.logged, hbuilt.members, hbuilt.groups, hbuilt.events]
  unfold StructDecl.preferred Addition.scan
  simp only [← Member.answersTo_eq, ← PropertyGroup.answersTo_eq, List.head?_filter]
  -- both ask in the same order, and stop at the first that is there
  generalize (Addition.groups additions).find? _ = group
  generalize (Addition.events additions).find? _ = event
  generalize (Addition.members additions).filter _ = candidates
  generalize candidates.find? (·.isField) = first
  rcases group with _ | g
  · rcases event with _ | e
    · rcases first with _ | m
      · cases candidates <;> rfl
      · rfl
    · rfl
  · rfl

end ReadonlyLint
