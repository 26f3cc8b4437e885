import ReadonlyLint.Signal

/-!
How often a run asks its signal. The number of questions does not depend on the answers, up to the
one that stops the run. So a run is stopped just when one of so many answers asks for it, and under
every signal that lets it finish it has the same result (`Cancellable.Asks`).
-/
namespace ReadonlyLint

namespace Signal

/-- The answers after the next `n`. -/
def after (s : Signal) (n : Nat) : Signal := ⟨fun k => s.answer (n + k)⟩

/-- Whether one of the next `n` answers asks to stop. -/
def stops (s : Signal) (n : Nat) : Bool := (List.range n).any s.answer

theorem stops_eq_true_iff {s : Signal} {n : Nat} :
    s.stops n = true ↔ ∃ k < n, s.answer k = true := by
  simp [stops]

theorem after_zero (s : Signal) : s.after 0 = s := by
  simp [after]

theorem after_after (s : Signal) (m n : Nat) : (s.after m).after n = s.after (m + n) := by
  simp [after, Nat.add_assoc]

theorem stops_zero (s : Signal) : s.stops 0 = false := rfl

theorem stops_one (s : Signal) : s.stops 1 = s.answer 0 := by
  simp [stops]

theorem stops_add (s : Signal) (m n : Nat) : s.stops (m + n) = (s.stops m || (s.after m).stops n) := by
  unfold stops
  rw [List.range_add, List.any_append, List.any_map]
  rfl

theorem stops_never (n : Nat) : never.stops n = false := by
  simp [stops, never]

theorem stops_always {n : Nat} : always.stops n = true ↔ n ≠ 0 := by
  rw [stops_eq_true_iff]
  constructor
  · rintro ⟨k, hk, -⟩
    omega
  · intro hn
    exact ⟨0, Nat.pos_of_ne_zero hn, rfl⟩

end Signal

namespace Cancellable

/-- The run asks the signal `n` times. It has no result if one of the answers asks it to stop, and
else its result is the value. -/
def Asks {α : Type} (run : Cancellable α) (n : Nat) (a : α) : Prop :=
  ∀ s : Signal, run s = if s.stops n then none else some (a, s.after n)

theorem asks_pure {α : Type} (a : α) : Asks (pure a) 0 a := by
  intro s
  rw [s.stops_zero, s.after_zero]
  rfl

theorem asks_check : Asks check 1 () := by
  intro s
  rw [s.stops_one]
  simp only [check, Signal.rest, Signal.after, Nat.add_comm]

theorem asks_checkIf (condition : Bool) :
    Asks (checkIf condition) (if condition then 1 else 0) () := by
  cases condition with
  | false => exact asks_pure ()
  | true => exact asks_check

namespace Asks

variable {α β : Type} {run : Cancellable α} {m n : Nat} {a : α}

theorem congr (h : Asks run m a) (heq : m = n) : Asks run n a := heq ▸ h

/-- One run after the other asks the questions of both. -/
theorem bind {next : α → Cancellable β} {b : β} (h : Asks run m a) (hnext : Asks (next a) n b) :
    Asks (run >>= next) (m + n) b := by
  intro s
  change (run s).bind (fun q => next q.1 q.2) = _
  rw [h s, s.stops_add]
  by_cases hs : s.stops m = true
  · simp [hs]
  · simp only [hs, Bool.false_eq_true, if_false, Option.bind_some, Bool.false_or]
    rw [hnext, s.after_after]

theorem map (h : Asks run n a) (f : α → β) : Asks (run >>= fun x => pure (f x)) n (f a) := by
  rw [← Nat.add_zero n]
  exact h.bind (asks_pure (f a))

theorem result? (h : Asks run n a) (s : Signal) :
    run.result? s = if s.stops n then none else some a := by
  unfold Cancellable.result?
  rw [h s]
  split <;> rfl

theorem result?_never (h : Asks run n a) : run.result? .never = some a := by
  rw [h.result?, Signal.stops_never]
  rfl

end Asks

end Cancellable

end ReadonlyLint
