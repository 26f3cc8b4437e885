import ReadonlyLint.Proofs.Members

/-!
What names mean. A declaration keeps a log of the names it was given; every entry of the log leads
to the member, group or event that was added with it (`StructDecl.Logged`). So the meaning of a name
is found by a scan of what was added, without the log.
-/
namespace ReadonlyLint

/-! ## Logs -/

/-- The log has the name and the place of every entry that can be named, in their order. -/
def Logs {α : Type} (named : α → Bool) (name : α → String) (entries : Array α)
    (log : List (String × Nat)) : Prop :=
  log = (entries.toList.zipIdx.filter (named ·.1)).map fun p => (name p.1, p.2)

theorem Logs.push {α : Type} {named : α → Bool} {name : α → String} {entries : Array α}
    {log : List (String × Nat)} (h : Logs named name entries log) (a : α) :
    Logs named name (entries.push a)
      (log ++ if named a then [(name a, entries.size)] else []) := by
  unfold Logs at *
  by_cases ha : named a = true
  · simp [h, ha, List.zipIdx_append]
  · simp [h, ha, List.zipIdx_append]

/-- To look a name up in a log and follow the places is to scan the entries. -/
theorem Logs.lookup {α : Type} {named : α → Bool} {name : α → String} {entries : Array α}
    {log : List (String × Nat)} (h : Logs named name entries log) (wanted : String) :
    (log.filterMap fun p => if p.1 = wanted then entries[p.2]? else none) =
      entries.toList.filter fun a => named a && name a = wanted := by
  have hplace : ∀ p ∈ entries.toList.zipIdx, entries[p.2]? = some p.1 := by
    intro p hp
    rw [← Array.getElem?_toList]
    exact List.mem_zipIdx_iff_getElem?.mp hp
  have hentries : entries.toList = entries.toList.zipIdx.map (·.1) := by simp
  rw [h, List.filterMap_map, ← List.filterMap_eq_filter, ← List.filterMap_eq_filter,
    List.filterMap_filterMap]
  nth_rewrite 2 [hentries]
  rw [List.filterMap_map]
  apply List.filterMap_congr
  intro p hp
  by_cases hnamed : named p.1 = true
  · by_cases hname : name p.1 = wanted
    · simp [Option.guard, hnamed, hname, hplace p hp]
    · simp [Option.guard, hnamed, hname]
  · simp [Option.guard, hnamed]

namespace Symbol

def member? : Symbol → Option Nat
  | .member id => some id
  | _ => none

def group? : Symbol → Option Nat
  | .group id => some id
  | _ => none

def event? : Symbol → Option Nat
  | .event index => some index
  | _ => none

end Symbol

namespace StructDecl

/-- The names of one sort of symbol, with their places. -/
def log (d : StructDecl) (place? : Symbol → Option Nat) : List (String × Nat) :=
  d.symbols.filterMap fun p => (place? p.2).map (p.1, ·)

/-- The log of names has everything that was added and can be named. -/
structure Logged (d : StructDecl) : Prop where
  members : Logs Member.isNamed Member.name d.members (d.log Symbol.member?)
  groups : Logs PropertyGroup.isNamed PropertyGroup.name d.groups (d.log Symbol.group?)
  events : Logs (fun _ => true) CustomEvent.name d.events (d.log Symbol.event?)

@[simp] theorem symbols_addSymbol (d : StructDecl) (named : Bool) (name : String)
    (symbol : Symbol) :
    (d.addSymbol named name symbol).symbols =
      d.symbols ++ if named then [(name, symbol)] else [] := by
  unfold addSymbol
  split <;> simp [*]

@[simp] theorem events_pushMember (d : StructDecl) (m : Member) :
    (d.pushMember m).events = d.events := by
  unfold pushMember addSymbol
  dsimp only
  split <;> rfl

@[simp] theorem events_pushGroup (d : StructDecl) (g : PropertyGroup) :
    (d.pushGroup g).events = d.events := by
  unfold pushGroup addSymbol
  dsimp only
  split <;> rfl

theorem log_append {d : StructDecl} (d' : StructDecl) {named : Bool} {name : String}
    {symbol : Symbol} (h : d'.symbols = d.symbols ++ if named then [(name, symbol)] else [])
    (place? : Symbol → Option Nat) :
    d'.log place? =
      d.log place? ++ if named then (place? symbol).toList.map (name, ·) else [] := by
  unfold log
  rw [h, List.filterMap_append]
  cases named with
  | false => simp
  | true => cases hplace : place? symbol <;> simp [hplace]

theorem Logged.pushMember {d : StructDecl} (h : d.Logged) (m : Member) :
    (d.pushMember m).Logged := by
  have hlog := log_append (d.pushMember m) (d.symbols_addSymbol m.isNamed m.name _)
  refine ⟨?_, ?_, ?_⟩
  · rw [hlog]
    exact h.members.push { m with id := d.members.size }
  · rw [hlog, groups_pushMember]
    simpa [Symbol.group?] using h.groups
  · rw [hlog, events_pushMember]
    simpa [Symbol.event?] using h.events

theorem Logged.pushGroup {d : StructDecl} (h : d.Logged) (g : PropertyGroup) :
    (d.pushGroup g).Logged := by
  have hlog := log_append (d.pushGroup g) (d.symbols_addSymbol g.isNamed g.name _)
  refine ⟨?_, ?_, ?_⟩
  · rw [hlog, members_pushGroup]
    simpa [Symbol.member?] using h.members
  · rw [hlog]
    exact h.groups.push { g with id := d.groups.size }
  · rw [hlog, events_pushGroup]
    simpa [Symbol.event?] using h.events

theorem Logged.pushEvent {d : StructDecl} (h : d.Logged) (e : CustomEvent) :
    (d.pushEvent e).Logged := by
  have hlog := log_append (d.pushEvent e) (d.symbols_addSymbol true e.name _)
  refine ⟨?_, ?_, ?_⟩
  · rw [hlog]
    simpa [Symbol.member?] using h.members
  · rw [hlog]
    simpa [Symbol.group?] using h.groups
  · rw [hlog]
    exact h.events.push e

theorem kept_logged : Kept Logged where
  error := fun _ h => ⟨h.members, h.groups, h.events⟩
  event := fun _ e _ h => h.pushEvent e
  field := fun _ m _ _ h => h.pushMember m
  method := fun _ m _ _ _ _ h => h.pushMember m
  accessors := fun _ _ _ _ specs _ h =>
    kept_foldl (fun _ _ h => h.pushMember _) specs (h.pushGroup _)

theorem logged_header (n : Node) : (header n).Logged := ⟨rfl, rfl, rfl⟩

theorem logged_ofTree {root : Node} {d : StructDecl} (hd : d ∈ ofTree root) : d.Logged :=
  kept_ofTree kept_logged logged_header hd

/-! ## The meaning of a name -/

/-- What a name means to which these groups, events and members were given: a property before an
event, an event before a field, a field before the methods. -/
def preferred (groups : List PropertyGroup) (events : List CustomEvent) (members : List Member) :
    Option Resolved :=
  match groups.head?, events.head?, members.find? (·.isField), members with
  | some g, _, _, _ => some (.property g)
  | none, some e, _, _ => some (.event e)
  | none, none, some m, _ => some (.field m)
  | none, none, none, [] => none
  | none, none, none, ms => some (.methods ms)

theorem preferred_of_group {groups : List PropertyGroup} {g : PropertyGroup}
    (h : groups.head? = some g) (events : List CustomEvent) (members : List Member) :
    preferred groups events members = some (.property g) := by
  unfold preferred
  rw [h]

theorem preferred_of_field {members : List Member} {m : Member}
    (h : members.find? (·.isField) = some m) : preferred [] [] members = some (.field m) := by
  unfold preferred
  rw [h]
  rfl

/-- What the log of names leads to is what the arrays have under the name. -/
theorem filterMap_symbolsOf {α : Type} (d : StructDecl) (name : String)
    (place? : Symbol → Option Nat) (entries : Array α) :
    (d.symbolsOf name).filterMap (fun symbol => (place? symbol).bind (entries[·]?)) =
      (d.log place?).filterMap fun p => if p.1 = name then entries[p.2]? else none := by
  unfold symbolsOf log
  rw [List.filterMap_filterMap, List.filterMap_filterMap]
  apply List.filterMap_congr
  rintro ⟨n, symbol⟩ -
  by_cases hn : n = name
  · cases hplace : place? symbol <;> simp [hn, hplace]
  · cases hplace : place? symbol <;> simp [hn]

/-- A name means what a scan of the declaration finds first. -/
theorem resolve_eq_preferred {d : StructDecl} (h : d.Logged) (name : String) :
    d.resolve name =
      preferred (d.groups.toList.filter fun g => g.isNamed && g.name = name)
        (d.events.toList.filter fun e => e.name = name)
        (d.members.toList.filter fun m => m.isNamed && m.name = name) := by
  have hgroups := (d.filterMap_symbolsOf name Symbol.group? d.groups).trans (h.groups.lookup name)
  have hevents := (d.filterMap_symbolsOf name Symbol.event? d.events).trans (h.events.lookup name)
  have hmembers :=
    (d.filterMap_symbolsOf name Symbol.member? d.members).trans (h.members.lookup name)
  simp only [Bool.true_and] at hevents
  rw [← hgroups, ← hevents, ← hmembers]
  unfold resolve preferred
  dsimp only
  rw [List.head?_filterMap, List.head?_filterMap]
  -- the two differ only in how they look at a symbol
  congr 1
  all_goals
    congr
    funext symbol
    cases symbol <;> rfl

/-! ## What a name can mean -/

theorem groups_of_preferred {groups : List PropertyGroup} {events : List CustomEvent}
    {members : List Member} {g : PropertyGroup}
    (h : preferred groups events members = some (.property g)) : g ∈ groups := by
  unfold preferred at h
  split at h
  · rename_i hgroup
    cases h
    exact List.mem_of_head? hgroup
  all_goals cases h

theorem events_of_preferred {groups : List PropertyGroup} {events : List CustomEvent}
    {members : List Member} {e : CustomEvent}
    (h : preferred groups events members = some (.event e)) : e ∈ events := by
  unfold preferred at h
  split at h
  · cases h
  · rename_i hevent
    cases h
    exact List.mem_of_head? hevent
  all_goals cases h

theorem methods_of_preferred {groups : List PropertyGroup} {events : List CustomEvent}
    {members ms : List Member} (h : preferred groups events members = some (.methods ms)) :
    ∀ m ∈ ms, m ∈ members ∧ m.isField = false := by
  unfold preferred at h
  split at h
  · cases h
  · cases h
  · cases h
  · cases h
  · rename_i hnone
    cases h
    intro m hm
    exact ⟨hm, by simpa using List.find?_eq_none.mp hnone m hm⟩

variable {d : StructDecl} (h : d.Logged) {name : String}
include h

/-- A property that a name means can be named. -/
theorem mem_of_resolve_property {g : PropertyGroup}
    (hg : d.resolve name = some (.property g)) : g ∈ d.groups ∧ g.isNamed = true := by
  rw [resolve_eq_preferred h] at hg
  obtain ⟨hmem, hnamed⟩ := List.mem_filter.mp (groups_of_preferred hg)
  exact ⟨Array.mem_toList_iff.mp hmem, (Bool.and_eq_true_iff.mp hnamed).1⟩

theorem mem_of_resolve_event {e : CustomEvent} (he : d.resolve name = some (.event e)) :
    e ∈ d.events := by
  rw [resolve_eq_preferred h] at he
  exact Array.mem_toList_iff.mp (List.mem_filter.mp (events_of_preferred he)).1

/-- Methods that a name means can be named, and are no fields. -/
theorem mem_of_resolve_methods {ms : List Member} (hms : d.resolve name = some (.methods ms)) :
    ∀ m ∈ ms, m ∈ d.members ∧ m.isNamed = true ∧ m.isField = false := by
  rw [resolve_eq_preferred h] at hms
  intro m hm
  obtain ⟨hin, hfield⟩ := methods_of_preferred hms m hm
  obtain ⟨hmem, hnamed⟩ := List.mem_filter.mp hin
  exact ⟨Array.mem_toList_iff.mp hmem, (Bool.and_eq_true_iff.mp hnamed).1, hfield⟩

end StructDecl

end ReadonlyLint
