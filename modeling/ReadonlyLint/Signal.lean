/-!
Cancellation. A run asks a signal from time to time whether it should stop; the signal answers
each question in turn. A run that is told to stop has no result at all.
-/
namespace ReadonlyLint

/-- The answers of a signal to the questions still to come: `true` asks the run to stop. -/
structure Signal where
  answer : Nat → Bool

namespace Signal

/-- Never asks to stop. -/
def never : Signal := ⟨fun _ => false⟩

/-- Asks to stop at the first question. -/
def always : Signal := ⟨fun _ => true⟩

/-- The answers after the next one. -/
def rest (s : Signal) : Signal := ⟨fun k => s.answer (k + 1)⟩

@[simp] theorem never_rest : never.rest = never := rfl

end Signal

/-- A run that a signal may stop. -/
abbrev Cancellable (α : Type) := StateT Signal Option α

namespace Cancellable

/-- Asks the signal once. -/
def check : Cancellable Unit := fun s => if s.answer 0 then none else some ((), s.rest)

/-- Asks the signal if the condition holds. -/
def checkIf (condition : Bool) : Cancellable Unit := if condition then check else pure ()

/-- The result of a run under a signal, if the signal lets it finish. -/
def result? {α : Type} (run : Cancellable α) (s : Signal) : Option α := (run s).map (·.1)

end Cancellable

end ReadonlyLint
